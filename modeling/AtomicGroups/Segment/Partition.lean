import AtomicGroups.Group.Composition
import AtomicGroups.Segment.Run

/-!
# The maximal runs of a batch

Where the runs of a batch lie is determined by the groups that its records claim: `maximalRuns` cuts
the records between neighbours that do not claim the same non-zero group.  `runsFrom` numbers the
parts and gives them their positions.  `faults` lists what is wrong with the runs in the order in
which it is looked for.
-/

namespace AtomicGroups

/-- Whether a record belongs to the run of the record before it. -/
def continues (before r : Record) : Bool := r.isStamped && before.group = r.group

/-- The records of each maximal run, in order. -/
def maximalRuns (records : List Record) : List (List Record) := records.splitBy continues

/-- The group that a run claims: that of its first member. -/
def claimOf : List Record → Digest
  | [] => Digest.zero
  | r :: _ => r.group

/-- The runs with the given members, numbered from `index` on and laid out from `start` on. -/
def runsFrom : (index start : Nat) → List (List Record) → List Run
  | _, _, [] => []
  | index, start, members :: later =>
    ⟨index, start, start + members.length, claimOf members⟩ ::
      runsFrom (index + 1) (start + members.length) later

/-- The assignment that consists of the given runs. -/
def Assignment.ofRuns (runs : List Run) : Assignment := runs.foldl Assignment.push Assignment.empty

/-- Whether a run may stand: it is unstamped, or short enough and composed as it claims. -/
def RunStands (maxGroup : Nat) (members : List Record) : Prop :=
  claimOf members = Digest.zero ∨
    members.length ≤ maxGroup ∧ Group.ofRecords members = claimOf members

/-- Whether no group but zero is claimed by two runs. -/
def ClaimsDistinct (runs : List (List Record)) : Prop :=
  runs.Pairwise fun a b => claimOf a = claimOf b → claimOf a = Digest.zero

/-! ## Faults -/

/-- What is wrong with a run of the given members: first, for each earlier run with its claim, that
it does not continue that run; then, once it has closed, that it is too long and that it does not
compose to its claim.  An unstamped run claims nothing, so nothing is wrong with it. -/
def Run.faults (maxGroup : Nat) (earlier : List Run) (closed : Bool) (run : Run)
    (members : List Record) : List RunError :=
  let reused := (earlier.filter fun first => first.group = run.group).map fun first =>
    .nonContiguousGroup run.start run.stop run.group first.start first.stop
  let tooLong :=
    if maxGroup < run.length then [.groupTooLarge run.start run.stop maxGroup] else []
  let computed := Group.ofRecords members
  let mismatch :=
    if computed = run.group then [] else [.digestMismatch run.start run.stop run.group computed]
  if run.isStamped then reused ++ if closed then tooLong ++ mismatch else [] else []

/-- What is wrong with the runs of a batch, run by run.  A run has closed if another run follows it
or if the runs are `complete`: the last one ends where the batch does. -/
def faults (maxGroup : Nat) (complete : Bool) (parts : List (List Record)) : List RunError :=
  let runs := runsFrom 0 0 parts
  (runs.zip parts).flatMap fun (run, members) =>
    run.faults maxGroup (runs.take run.index) (complete || run.index + 1 < parts.length) members

end AtomicGroups
