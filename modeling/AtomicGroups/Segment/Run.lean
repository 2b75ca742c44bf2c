import AtomicGroups.Digest

/-!
# Runs and assignments

A batch is cut into runs: stretches of positions that share one decision about their group.  An
`Assignment` holds the runs in order and, for each position, the index of its run.
-/

namespace AtomicGroups

/-- The positions `[start, stop)` of a batch, which form one group or are one unstamped
transaction. -/
structure Run where
  /-- The index given to every member. -/
  index : Nat
  /-- The first position. -/
  start : Nat
  /-- The position after the last. -/
  stop : Nat
  /-- The group that the members claim, zero for an unstamped transaction. -/
  group : Digest
deriving DecidableEq, Inhabited

namespace Run

def length (r : Run) : Nat := r.stop - r.start

def isEmpty (r : Run) : Bool := r.start = r.stop

/-- Whether the members claim a group. -/
def isStamped (r : Run) : Bool := !r.group.isZero

def contains (r : Run) (position : Nat) : Bool := r.start ≤ position ∧ position < r.stop

end Run

/-- The runs of a batch and the index of each position's run. -/
structure Assignment where
  /-- The index of the run of each position. -/
  indices : Array Nat
  runs : Array Run
deriving DecidableEq, Inhabited

namespace Assignment

def empty : Assignment := ⟨#[], #[]⟩

/-- Appends a run, whose members get its index. -/
def push (a : Assignment) (r : Run) : Assignment :=
  ⟨a.indices ++ Array.replicate r.length r.index, a.runs.push r⟩

/-- The run of a position. -/
def runOf? (a : Assignment) (position : Nat) : Option Run := do
  let index ← a.indices[position]?
  a.runs[index]?

/-- The group claimed at each position. -/
def groups (a : Assignment) : List Digest :=
  a.runs.toList.flatMap fun r => List.replicate r.length r.group

@[simp] theorem runs_push (a : Assignment) (r : Run) : (a.push r).runs = a.runs.push r := rfl

@[simp] theorem toList_indices_push (a : Assignment) (r : Run) :
    (a.push r).indices.toList = a.indices.toList ++ List.replicate r.length r.index := by
  simp [push]

end Assignment

end AtomicGroups
