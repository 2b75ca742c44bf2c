import AtomicGroups.Segment.Scan

/-!
# Assignments one behind the other

Where one batch follows another, positions and indices go on where the first batch ends.  An
assignment of the whole batch is cut apart again at a position: the part in front of it keeps its
numbers, the part behind it is numbered anew.
-/

namespace AtomicGroups

namespace Run

/-- The run behind `index` others, which reach up to `start`. -/
def shift (index start : Nat) (r : Run) : Run :=
  ⟨index + r.index, start + r.start, start + r.stop, r.group⟩

/-- The run if the first `index` runs, which reach up to `start`, are left out. -/
def recount (index start : Nat) (r : Run) : Run :=
  ⟨r.index - index, r.start - start, r.stop - start, r.group⟩

/-- Whether a position lies within a run, so that members stand on both sides of it. -/
def Spans (r : Run) (position : Nat) : Prop := r.start < position ∧ position < r.stop

@[simp] theorem length_shift (index start : Nat) (r : Run) :
    (r.shift index start).length = r.length :=
  Nat.add_sub_add_left ..

@[simp] theorem recount_shift (index start : Nat) (r : Run) :
    (r.shift index start).recount index start = r := by
  simp [shift, recount]

end Run

namespace Assignment

/-- The runs of `a` and behind them those of `b`. -/
def append (a b : Assignment) : Assignment :=
  ⟨a.indices ++ b.indices.map (a.runs.size + ·),
    a.runs ++ b.runs.map (Run.shift a.runs.size a.indices.size)⟩

instance : Append Assignment := ⟨append⟩

/-- What an assignment says of the positions in front of `position`. -/
def before (position : Nat) (a : Assignment) : Assignment :=
  ⟨a.indices.take position, a.runs.filter fun r => r.stop ≤ position⟩

/-- What an assignment says of the positions from `position` on, with positions and indices counted
from there. -/
def behind (position : Nat) (a : Assignment) : Assignment :=
  let earlier := (a.before position).runs.size
  ⟨(a.indices.drop position).map (· - earlier),
    (a.runs.filter fun r => position ≤ r.start).map (Run.recount earlier position)⟩

end Assignment

/-- Whether no group but zero is claimed both in `a` and in `b`. -/
def Batch.ClaimsApart (limits : Limits) (a b : Batch) : Prop :=
  ∀ tx ∈ a, ∀ tx' ∈ b, ∀ r r', tx.record limits = .ok r → tx'.record limits = .ok r' →
    r.group = r'.group → r.group = Digest.zero

end AtomicGroups
