import AtomicGroups.Record.Basic

/-!
# The shape of a grouping

What holds of every grouping that was accepted: indices count the runs without a gap, a group fills
one stretch of the batch, and stamping changes nothing but the group.
-/

namespace AtomicGroups

/-- Whether indices start at zero and each is its neighbour's or one more. -/
def denseIndices (indices : List Nat) : Bool :=
  indices.head?.all (· = 0) && (indices.zip indices.tail).all fun (i, j) => j = i || j = i + 1

/-- Whether no group takes up a stretch that has ended, where `closed` are the groups of the
stretches that have and `previous` is the group in front. -/
def contiguousFrom (closed : List Digest) (previous : Option Digest) : List Digest → Bool
  | [] => true
  | g :: later =>
    if previous = some g && !g.isZero then contiguousFrom closed previous later
    else
      let closed := (previous.filter fun p => !p.isZero).toList ++ closed
      if !g.isZero && closed.contains g then false else contiguousFrom closed (some g) later

/-- Whether each non-zero group fills one stretch. -/
def contiguousGroups (groups : List Digest) : Bool := contiguousFrom [] none groups

/-- Whether two lists of records agree, one by one, but for the groups they claim. -/
def payloadPreserved (before after : List Record) : Bool :=
  before.length = after.length && (before.zip after).all fun (r, s) => r.samePayload s

end AtomicGroups
