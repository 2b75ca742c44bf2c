import Mathlib
import AtomicGroups.Proofs.Batch
import AtomicGroups.Proofs.Segment.Runs
import AtomicGroups.Segment.Scan

/-!
# The scan, run by run

A scan decides record by record.  `Assignment.takeIn` makes the same decisions run by run: it takes
in the maximal runs of the records that could be read, each of them first checked against the claims
of the earlier ones and then, when it closes, for its length and its digest.  A transaction that is
no record is reported before the run in front of it closes.

The two agree (`Scan.run_eq_takeIn`).  What carries the induction is that the run under way,
followed by what is still to be read, has the maximal runs that are still to be taken in
(`Scan.Inv`).
-/

namespace AtomicGroups

namespace Assignment

/-- Checks that the claim of the next run is not that of an earlier run. -/
def checkUnclaimed (a : Assignment) (members : List Record) : Except RunError Unit :=
  if claimOf members = Digest.zero then .ok ()
  else
    match Scan.claimant? a (claimOf members) with
    | some first =>
      .error (.nonContiguousGroup a.indices.size (a.indices.size + members.length)
        (claimOf members) first.start first.stop)
    | none => .ok ()

/-- Appends the next run, after checking its length and its claim if it is stamped. -/
def closeRun (maxGroup : Nat) (a : Assignment) (members : List Record) :
    Except RunError Assignment :=
  if claimOf members = Digest.zero then
    .ok (a.push ⟨a.runs.size, a.indices.size, a.indices.size + members.length, Digest.zero⟩)
  else Scan.close maxGroup ⟨a, some ⟨a.indices.size, claimOf members, members.toArray⟩⟩

/-- Takes in runs, the last of which does not close if something that is no record follows it. -/
def takeIn (maxGroup : Nat) (fault : Option BatchError) :
    Assignment → List (List Record) → Except BatchError Assignment
  | a, [] =>
    match fault with
    | none => .ok a
    | some e => .error e
  | a, members :: later => do
    (a.checkUnclaimed members).mapError .grouping
    match fault.filter fun _ => later.isEmpty with
    | some e => .error e
    | none => do
      let a ← (a.closeRun maxGroup members).mapError .grouping
      takeIn maxGroup fault a later

section

variable {maxGroup : Nat} {fault : Option BatchError} {a : Assignment} {members : List Record}
  {later : List (List Record)}

/-- An unstamped run is taken in as it is. -/
theorem takeIn_cons_of_unstamped (h : claimOf members = Digest.zero) :
    takeIn maxGroup fault a (members :: later) = takeIn maxGroup fault
      (a.push ⟨a.runs.size, a.indices.size, a.indices.size + members.length, Digest.zero⟩)
      later := by
  have hcheck : a.checkUnclaimed members = .ok () := if_pos h
  have hclose : a.closeRun maxGroup members = .ok
      (a.push ⟨a.runs.size, a.indices.size, a.indices.size + members.length, Digest.zero⟩) :=
    if_pos h
  rw [takeIn, hcheck]
  cases later <;> cases fault <;> rw [hclose] <;> rfl

theorem takeIn_cons_of_claimed {first : Run} (h : claimOf members ≠ Digest.zero)
    (hfirst : Scan.claimant? a (claimOf members) = some first) :
    takeIn maxGroup fault a (members :: later) =
      .error (.grouping (.nonContiguousGroup a.indices.size (a.indices.size + members.length)
        (claimOf members) first.start first.stop)) := by
  rw [takeIn, checkUnclaimed, if_neg h, hfirst]
  rfl

theorem checkUnclaimed_eq_ok (h : claimOf members ≠ Digest.zero →
    Scan.claimant? a (claimOf members) = none) : a.checkUnclaimed members = .ok () := by
  unfold checkUnclaimed
  by_cases hzero : claimOf members = Digest.zero
  · rw [if_pos hzero]
  · rw [if_neg hzero, h hzero]

/-- A run closes if another one follows, or if everything could be read. -/
theorem takeIn_cons_of_unclaimed
    (h : claimOf members ≠ Digest.zero → Scan.claimant? a (claimOf members) = none)
    (hcloses : later ≠ [] ∨ fault = none) : takeIn maxGroup fault a (members :: later) =
      (a.closeRun maxGroup members).mapError .grouping >>= fun a =>
        takeIn maxGroup fault a later := by
  have hopen : (fault.filter fun _ => later.isEmpty) = none := by
    rw [Option.filter_eq_none_iff]
    rintro e rfl
    rcases hcloses with hlater | hfault
    · rwa [List.isEmpty_iff]
    · cases hfault
  rw [takeIn, checkUnclaimed_eq_ok h, hopen]
  rfl

theorem takeIn_singleton_of_fault {e : BatchError}
    (h : claimOf members ≠ Digest.zero → Scan.claimant? a (claimOf members) = none) :
    takeIn maxGroup (some e) a [members] = .error e := by
  rw [takeIn, checkUnclaimed_eq_ok h]
  rfl

end

end Assignment

namespace Scan

variable {limits : Limits} {maxGroup position : Nat} {later batch : Batch} {s : Scan} {r : Record}
  {a : Assignment} {tx : Transaction}

/-- The members of the run under way. -/
def members (s : Scan) : List Record :=
  match s.current with
  | none => []
  | some run => run.members.toList

/-- What holds of a scan in front of a position: the closed runs and the run under way reach up to
it, and the run under way is a first run of its claim. -/
structure Inv (position : Nat) (s : Scan) : Prop where
  size : s.closed.indices.size + s.members.length = position
  current : ∀ run, s.current = some run → run.start = s.closed.indices.size ∧
    run.group ≠ Digest.zero ∧ Claim run.group run.members.toList ∧
    claimant? s.closed run.group = none

theorem inv_start : Inv 0 start := ⟨rfl, fun _ h => by cases h⟩

theorem claimStop_cons_of_claims {g : Digest} (htx : tx.record limits = .ok r) (hg : r.group = g) :
    claimStop limits position g (tx :: later) = claimStop limits (position + 1) g later := by
  unfold claimStop
  dsimp only
  rw [List.takeWhile_cons_of_pos (by simp [htx, hg]), List.length_cons]
  omega

theorem claimStop_cons_of_not_claims {g : Digest}
    (h : ∀ r, tx.record limits = .ok r → r.group ≠ g) :
    claimStop limits position g (tx :: later) = position + 1 := by
  unfold claimStop
  dsimp only
  rw [List.takeWhile_cons_of_neg]
  · rfl
  · cases htx : tx.record limits with
    | ok r => simpa using h r htx
    | error e => simp

/-- The records with a claim are those in front of the first that has another one, as far as records
can be read. -/
theorem claimStop_eq (limits : Limits) (position k : Nat) (g : Digest) (later : Batch) :
    claimStop limits position g later = position +
      (((Batch.readFrom limits k later).1.takeWhile fun r => r.group = g).length + 1) := by
  induction later generalizing position k with
  | nil => rfl
  | cons tx later ih =>
    cases htx : Batch.recordAt limits k tx with
    | ok r =>
      rw [Batch.recordAt_eq_ok_iff] at htx
      rw [Batch.readFrom_of_ok htx]
      by_cases hg : r.group = g
      · rw [claimStop_cons_of_claims htx hg, ih (position + 1) (k + 1),
          List.takeWhile_cons_of_pos (by simpa using hg), List.length_cons]
        omega
      · rw [claimStop_cons_of_not_claims, List.takeWhile_cons_of_neg (by simpa using hg)]
        · rfl
        · intro r' hr'
          rw [htx] at hr'
          cases hr'
          exact hg
    | error e =>
      rw [Batch.readFrom_of_error htx, claimStop_cons_of_not_claims]
      · rfl
      · intro r' hr'
        rw [Batch.recordAt_eq_ok_iff.2 hr'] at htx
        cases htx

/-! ## Steps -/

theorem step_of_continues {run : OpenRun} (hcurrent : s.current = some run)
    (hr : r.group ≠ Digest.zero) (hg : run.group = r.group) :
    s.step limits maxGroup position later r =
      .ok { s with current := some { run with members := run.members.push r } } := by
  unfold step
  rw [hcurrent, Option.filter_some_pos]
  rw [Bool.and_eq_true, Record.isStamped_iff, decide_eq_true_eq]
  exact ⟨hr, hg⟩

/-- A record that does not continue the run under way closes it first. -/
theorem step_of_not_continues
    (h : ∀ run, s.current = some run → r.group ≠ Digest.zero → run.group ≠ r.group) :
    s.step limits maxGroup position later r = s.close maxGroup >>= fun closed =>
      step limits maxGroup position later ⟨closed, none⟩ r := by
  have hfilter : (s.current.filter fun run => r.isStamped && run.group = r.group) = none := by
    rw [Option.filter_eq_none_iff]
    intro run hrun
    rw [Bool.and_eq_true, Record.isStamped_iff, decide_eq_true_eq, not_and]
    exact h run hrun
  unfold step
  rw [hfilter]
  rfl

theorem step_of_unstamped (hr : r.group = Digest.zero) :
    step limits maxGroup position later ⟨a, none⟩ r =
      .ok ⟨a.push ⟨a.runs.size, position, position + 1, Digest.zero⟩, none⟩ := by
  have hstamped := Record.isStamped_eq_false_iff.2 hr
  change (if r.isStamped = true then _ else _) = _
  rw [hstamped]
  rfl

theorem step_of_claimed (hr : r.group ≠ Digest.zero) {first : Run}
    (hfirst : claimant? a r.group = some first) :
    step limits maxGroup position later ⟨a, none⟩ r =
      .error (.nonContiguousGroup position (claimStop limits position r.group later) r.group
        first.start first.stop) := by
  change (if r.isStamped = true then _ else _) = _
  rw [if_pos (Record.isStamped_iff.2 hr), hfirst]
  rfl

theorem step_of_unclaimed (hr : r.group ≠ Digest.zero) (hfirst : claimant? a r.group = none) :
    step limits maxGroup position later ⟨a, none⟩ r =
      .ok ⟨a, some ⟨position, r.group, #[r]⟩⟩ := by
  change (if r.isStamped = true then _ else _) = _
  rw [if_pos (Record.isStamped_iff.2 hr), hfirst]
  rfl

theorem Inv.continue {run : OpenRun} (h : Inv position s) (hcurrent : s.current = some run)
    (hg : r.group = run.group) :
    Inv (position + 1) { s with current := some { run with members := run.members.push r } } := by
  obtain ⟨hstart, hzero, hclaim, hfirst⟩ := h.current run hcurrent
  have hsize := h.size
  unfold members at hsize
  rw [hcurrent] at hsize
  refine ⟨?_, fun run' hrun' => ?_⟩
  · change _ + (run.members.push r).toList.length = _
    rw [Array.toList_push, List.length_append, List.length_singleton]
    dsimp only at hsize ⊢
    omega
  · cases hrun'
    dsimp only
    rw [Array.toList_push]
    exact ⟨hstart, hzero, hclaim.concat hg, hfirst⟩

theorem inv_push (ha : a.indices.size = position) :
    Inv (position + 1) ⟨a.push ⟨a.runs.size, position, position + 1, Digest.zero⟩, none⟩ := by
  refine ⟨?_, fun run hrun => by cases hrun⟩
  change (Assignment.push _ _).indices.size + 0 = _
  rw [Assignment.push, Array.size_append, Array.size_replicate, Run.length_mk, ha]

theorem inv_open (ha : a.indices.size = position) (hr : r.group ≠ Digest.zero)
    (hfirst : claimant? a r.group = none) :
    Inv (position + 1) ⟨a, some ⟨position, r.group, #[r]⟩⟩ := by
  refine ⟨by rw [← ha]; rfl, fun run hrun => ?_⟩
  cases hrun
  exact ⟨ha.symm, hr, ⟨List.cons_ne_nil _ _, by simp⟩, hfirst⟩

/-- Either no run is under way, or one whose claim is new and which closes as it is taken in. -/
theorem Inv.cases (h : Inv position s) (maxGroup : Nat) :
    (s.current = none ∧ s.members = [] ∧ s.close maxGroup = .ok s.closed) ∨
      ∃ run, s.current = some run ∧ s.members = run.members.toList ∧ Claim run.group s.members ∧
        run.group ≠ Digest.zero ∧
        (claimOf s.members ≠ Digest.zero → claimant? s.closed (claimOf s.members) = none) ∧
        s.close maxGroup = s.closed.closeRun maxGroup s.members := by
  obtain ⟨closed, current⟩ := s
  cases current with
  | none => exact .inl ⟨rfl, rfl, rfl⟩
  | some run =>
    obtain ⟨hstart, hzero, hclaim, hfirst⟩ := h.current run rfl
    have hclaimOf : claimOf run.members.toList = run.group := hclaim.claimOf_eq
    refine .inr ⟨run, rfl, rfl, hclaim, hzero, fun _ => ?_, ?_⟩
    · change claimant? closed (claimOf run.members.toList) = none
      rw [hclaimOf]
      exact hfirst
    · change _ = closed.closeRun maxGroup run.members.toList
      rw [Assignment.closeRun, hclaimOf, if_neg hzero]
      dsimp only at hstart
      rw [← hstart]

/-- Once the run under way has closed, the closed runs reach up to the position. -/
theorem Inv.size_of_close (h : Inv position s) (ha : s.close maxGroup = .ok a) :
    a.indices.size = position := by
  obtain ⟨closed, current⟩ := s
  have hsize := h.size
  unfold close at ha
  cases current with
  | none =>
    cases ha
    exact hsize
  | some run =>
    obtain ⟨hstart, -⟩ := h.current run rfl
    dsimp only [members] at ha hsize hstart
    split_ifs at ha
    split at ha
    · cases ha
    · cases ha
      rw [Assignment.push, Array.size_append, Array.size_replicate, OpenRun.stop, Run.length_mk]
      exact hsize

/-! ## Whole scans -/

/-- If the rest of a batch is taken in run by run, so is a record and the rest. -/
theorem run_of_step (ha : a.indices.size = position)
    (ih : ∀ s, Inv (position + 1) s → run limits maxGroup (position + 1) s later =
      s.closed.takeIn maxGroup (Batch.readFrom limits (position + 1) later).2
        (maximalRuns (s.members ++ (Batch.readFrom limits (position + 1) later).1))) :
    ((step limits maxGroup position later ⟨a, none⟩ r).mapError .grouping >>= fun s =>
      run limits maxGroup (position + 1) s later) =
      a.takeIn maxGroup (Batch.readFrom limits (position + 1) later).2
        (maximalRuns (r :: (Batch.readFrom limits (position + 1) later).1)) := by
  by_cases hr : r.group = Digest.zero
  · rw [step_of_unstamped hr, maximalRuns_cons_of_unstamped hr,
      Assignment.takeIn_cons_of_unstamped (show claimOf [r] = Digest.zero from hr), ha]
    exact ih _ (inv_push ha)
  cases hfirst : claimant? a r.group with
  | some first =>
    rw [step_of_claimed hr hfirst, maximalRuns_cons_of_stamped hr,
      claimStop_eq limits position (position + 1), ← ha]
    exact (Assignment.takeIn_cons_of_claimed (show claimOf (r :: _) ≠ Digest.zero from hr)
      hfirst).symm
  | none =>
    rw [step_of_unclaimed hr hfirst]
    exact ih _ (inv_open ha hr hfirst)

/-- One record more: it continues the run under way, or that run closes first. -/
theorem run_cons_of_ok (h : Inv position s) (htx : tx.record limits = .ok r)
    (ih : ∀ s, Inv (position + 1) s → run limits maxGroup (position + 1) s later =
      s.closed.takeIn maxGroup (Batch.readFrom limits (position + 1) later).2
        (maximalRuns (s.members ++ (Batch.readFrom limits (position + 1) later).1))) :
    run limits maxGroup position s (tx :: later) =
      s.closed.takeIn maxGroup (Batch.readFrom limits (position + 1) later).2
        (maximalRuns (s.members ++ r :: (Batch.readFrom limits (position + 1) later).1)) := by
  have hrun : run limits maxGroup position s (tx :: later) =
      (s.step limits maxGroup position later r).mapError .grouping >>= fun s =>
        run limits maxGroup (position + 1) s later := by
    rw [run, Batch.recordAt_eq_ok_iff.2 htx]
    rfl
  have hstep (a : Assignment) (ha : s.close maxGroup = .ok a) :=
    run_of_step (r := r) (h.size_of_close ha) ih
  rw [hrun]
  rcases h.cases maxGroup with ⟨hcurrent, hmembers, hclose⟩ |
    ⟨run, hcurrent, hmembers, hclaim, hzero, hfirst, hclose⟩
  · rw [step_of_not_continues (by simp [hcurrent]), hclose, hmembers]
    exact hstep _ hclose
  by_cases hg : r.group = run.group
  · rw [step_of_continues hcurrent (hg ▸ hzero) hg.symm]
    refine (ih _ (h.continue hcurrent hg)).trans ?_
    rw [hmembers, List.append_cons, ← Array.toList_push]
    rfl
  · have hcloses : ∀ run', s.current = some run' → r.group ≠ Digest.zero →
        run'.group ≠ r.group := by
      intro run' hrun' _ heq
      rw [hcurrent] at hrun'
      cases hrun'
      exact hg heq.symm
    rw [step_of_not_continues hcloses, hclaim.maximalRuns_append hzero hg,
      Assignment.takeIn_cons_of_unclaimed hfirst
        (.inl (maximalRuns_ne_nil (List.cons_ne_nil _ _))), ← hclose]
    cases hresult : s.close maxGroup with
    | error e => rfl
    | ok a => exact hstep a hresult

/-- A scan under way takes in the runs that are still to come, and the one under way as the first of
them. -/
theorem run_eq_takeIn (h : Inv position s) : run limits maxGroup position s batch =
    s.closed.takeIn maxGroup (Batch.readFrom limits position batch).2
      (maximalRuns (s.members ++ (Batch.readFrom limits position batch).1)) := by
  induction batch generalizing position s with
  | nil =>
    rw [run, Batch.readFrom, List.append_nil]
    rcases h.cases maxGroup with ⟨-, hmembers, hclose⟩ | ⟨run, -, -, hclaim, hzero, hfirst, hclose⟩
    · rw [hclose, hmembers]
      rfl
    · rw [hclose, hclaim.maximalRuns_eq hzero,
        Assignment.takeIn_cons_of_unclaimed hfirst (.inr rfl)]
      cases s.closed.closeRun maxGroup s.members <;> rfl
  | cons tx later ih =>
    cases htx : Batch.recordAt limits position tx with
    | ok r =>
      rw [Batch.recordAt_eq_ok_iff] at htx
      rw [Batch.readFrom_of_ok htx]
      exact run_cons_of_ok h htx fun s hs => ih hs
    | error e =>
      rw [run, htx, Batch.readFrom_of_error htx, List.append_nil]
      rcases h.cases maxGroup with ⟨-, hmembers, -⟩ | ⟨run, -, -, hclaim, hzero, hfirst, -⟩
      · rw [hmembers]
        rfl
      · rw [hclaim.maximalRuns_eq hzero, Assignment.takeIn_singleton_of_fault hfirst]
        rfl

end Scan

/-- Segmenting a batch is taking in the maximal runs of its records. -/
theorem Batch.segment_eq_takeIn (limits : Limits) (maxGroup : Nat) (batch : Batch) :
    batch.segment limits maxGroup = Assignment.empty.takeIn maxGroup
      (batch.readFrom limits 0).2 (maximalRuns (batch.readFrom limits 0).1) :=
  Scan.run_eq_takeIn Scan.inv_start

/-! ## Limits that no run exceeds -/

namespace Assignment

variable {maxGroup maxGroup' : Nat} {fault : Option BatchError} {a : Assignment}
  {members : List Record} {parts : List (List Record)}

theorem closeRun_congr (h : members.length ≤ maxGroup) (h' : members.length ≤ maxGroup') :
    a.closeRun maxGroup members = a.closeRun maxGroup' members := by
  have hsize : ¬ maxGroup < members.toArray.size := by simpa using h
  have hsize' : ¬ maxGroup' < members.toArray.size := by simpa using h'
  unfold closeRun Scan.close
  simp only [if_neg hsize, if_neg hsize']

theorem takeIn_congr (h : ∀ members ∈ parts, members.length ≤ maxGroup)
    (h' : ∀ members ∈ parts, members.length ≤ maxGroup') :
    a.takeIn maxGroup fault parts = a.takeIn maxGroup' fault parts := by
  induction parts generalizing a with
  | nil => rfl
  | cons members parts ih =>
    rw [List.forall_mem_cons] at h h'
    rw [takeIn, takeIn, closeRun_congr h.1 h'.1]
    simp only [ih h.2 h'.2]

end Assignment

/-- No run is longer than the batch, so a limit that is not below its length never matters. -/
theorem Batch.segment_eq_segmentAll {limits : Limits} {maxGroup : Nat} {batch : Batch}
    (h : batch.length ≤ maxGroup) : batch.segment limits maxGroup = batch.segmentAll limits := by
  have hlength : ∀ members ∈ maximalRuns (batch.readFrom limits 0).1,
      members.length ≤ batch.length := by
    intro members hmembers
    have hsublist := List.sublist_flatten_of_mem hmembers
    rw [flatten_maximalRuns] at hsublist
    exact hsublist.length_le.trans (length_readFrom_le limits 0 batch)
  rw [segmentAll, segment_eq_takeIn, segment_eq_takeIn]
  exact Assignment.takeIn_congr (fun members hmembers => (hlength members hmembers).trans h) hlength

end AtomicGroups
