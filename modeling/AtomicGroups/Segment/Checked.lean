import AtomicGroups.Segment.Shape

/-!
# Indices as machine words

The check that indices have no gap, on words of 64 bits.  The greatest word has no next one, and
looking for it is a fault.  Words are looked at in order, and only as far as the answer is open.
-/

namespace AtomicGroups

/-- The next word, if there is one. -/
def nextWord? (i : UInt64) : Option UInt64 :=
  if i.toNat + 1 < UInt64.size then some (i + 1) else none

/-- Whether an index may stand behind another one: it is the same or the next one.  The next one is
looked for only if it is not the same. -/
def mayFollow? (i j : UInt64) : Option Bool :=
  if j = i then some true else (nextWord? i).map fun next => j = next

/-- Whether each of some indices may stand behind its neighbour, up to the first that may not; the
neighbour of the first one is given. -/
def allFollow? (i : UInt64) : List UInt64 → Option Bool
  | [] => some true
  | j :: later => do if ← mayFollow? i j then allFollow? j later else return false

/-- Whether indices start at zero and each is its neighbour's or one more; `none` is a fault. -/
def denseWords? : List UInt64 → Option Bool
  | [] => some true
  | i :: later => if i = 0 then allFollow? i later else some false

end AtomicGroups
