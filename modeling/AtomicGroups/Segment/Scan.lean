import AtomicGroups.Group.Consistency
import AtomicGroups.Segment.Run

/-!
# Cutting a batch into runs

Neighbours that claim the same group form a run, and an unstamped transaction is a run of its own.
`Batch.segment` finds the runs in one pass.  A stamped run stays open while transactions with its
claim follow; when it closes, its length is checked against a limit and its claim against the group
that it composes to.  A group whose run has closed may not be claimed again.
-/

namespace AtomicGroups

/-- A stamped run that may still get members. -/
structure OpenRun where
  start : Nat
  group : Digest
  members : Array Record

/-- The position after the last member so far. -/
def OpenRun.stop (r : OpenRun) : Nat := r.start + r.members.size

/-- The state of a scan between two transactions. -/
structure Scan where
  closed : Assignment
  /-- The run that may still get members, if the last transaction was stamped. -/
  current : Option OpenRun

namespace Scan

def start : Scan := ⟨Assignment.empty, none⟩

/-- Closes the open run if there is one, after checking its length and its claim. -/
def close (maxGroup : Nat) (s : Scan) : Except RunError Assignment :=
  match s.current with
  | none => .ok s.closed
  | some run =>
    if maxGroup < run.members.size then .error (.groupTooLarge run.start run.stop maxGroup)
    else
      match Group.check run.group run.members.toList with
      | .error computed => .error (.digestMismatch run.start run.stop run.group computed)
      | .ok () => .ok (s.closed.push ⟨s.closed.runs.size, run.start, run.stop, run.group⟩)

/-- The position after the last of the transactions from `position` on, the first left out, that
claim a group without a break; a transaction that is no record ends them. -/
def claimStop (limits : Limits) (position : Nat) (group : Digest) (later : Batch) : Nat :=
  let claims (tx : Transaction) : Bool :=
    match tx.record limits with
    | .ok r => r.group = group
    | .error _ => false
  position + 1 + (later.takeWhile claims).length

/-- The run that closed with the given claim. -/
def claimant? (closed : Assignment) (group : Digest) : Option Run :=
  closed.runs.find? fun r => r.group = group

/-- Takes in the record at a position; `later` are the transactions after it. -/
def step (limits : Limits) (maxGroup position : Nat) (later : Batch) (s : Scan) (r : Record) :
    Except RunError Scan :=
  match s.current.filter fun run => r.isStamped && run.group = r.group with
  | some run => .ok { s with current := some { run with members := run.members.push r } }
  | none => do
    let closed ← s.close maxGroup
    if r.isStamped then
      match claimant? closed r.group with
      | some first =>
        throw (.nonContiguousGroup position (claimStop limits position r.group later) r.group
          first.start first.stop)
      | none => return ⟨closed, some ⟨position, r.group, #[r]⟩⟩
    else return ⟨closed.push ⟨closed.runs.size, position, position + 1, Digest.zero⟩, none⟩

/-- Scans the transactions from a position on. -/
def run (limits : Limits) (maxGroup : Nat) : (position : Nat) → Scan → Batch →
    Except BatchError Assignment
  | _, s, [] => (s.close maxGroup).mapError .grouping
  | position, s, tx :: later => do
    let r ← Batch.recordAt limits position tx
    let s ← (s.step limits maxGroup position later r).mapError .grouping
    run limits maxGroup (position + 1) s later

end Scan

namespace Batch

/-- The runs of a batch, none of which may have more than `maxGroup` members. -/
def segment (limits : Limits) (maxGroup : Nat) (batch : Batch) : Except BatchError Assignment :=
  Scan.run limits maxGroup 0 Scan.start batch

/-- The runs of a batch, of any length: none is longer than the batch, so with a greater limit they
are the same (`Batch.segment_eq_segmentAll`). -/
def segmentAll (limits : Limits) (batch : Batch) : Except BatchError Assignment :=
  batch.segment limits batch.length

end Batch

end AtomicGroups
