import Mathlib
import AtomicGroups.Proofs.Segment.Accepted

/-!
# What is refused

A batch that is refused is refused for the first of the faults of its runs (`faults`), and for the
transaction that is no record only if there is none.

Run by run, the faults that are still to come depend on the runs taken in so far alone
(`faultsBehind`), which is what the induction is about.
-/

namespace AtomicGroups

/-- The faults of runs that are laid out behind the runs `earlier`. -/
def faultsBehind (maxGroup : Nat) (complete : Bool) (earlier : List Run) (start : Nat)
    (parts : List (List Record)) : List RunError :=
  let runs := runsFrom earlier.length start parts
  (runs.zip parts).flatMap fun (run, members) =>
    run.faults maxGroup ((earlier ++ runs).take run.index)
      (complete || run.index + 1 < earlier.length + parts.length) members

section

variable {maxGroup start : Nat} {complete closed : Bool} {earlier : List Run} {run : Run}
  {members records : List Record} {parts : List (List Record)} {a : Assignment} {fault : RunError}

theorem faultsBehind_nil (maxGroup : Nat) (complete : Bool) (parts : List (List Record)) :
    faultsBehind maxGroup complete [] 0 parts = faults maxGroup complete parts := by
  simp [faultsBehind, faults]

/-- The faults of the next run come first. -/
theorem faultsBehind_cons (hrun : run = ⟨earlier.length, start, start + members.length,
    claimOf members⟩) : faultsBehind maxGroup complete earlier start (members :: parts) =
      run.faults maxGroup earlier (complete || !parts.isEmpty) members ++
        faultsBehind maxGroup complete (earlier ++ [run]) (start + members.length) parts := by
  have hlast : decide (earlier.length + 1 < earlier.length + (members :: parts).length) =
      !parts.isEmpty := by
    cases parts <;> simp
  have hlength : earlier.length + (members :: parts).length =
      (earlier ++ [run]).length + parts.length := by
    simp only [List.length_append, List.length_cons, List.length_nil]
    omega
  unfold faultsBehind
  dsimp only
  rw [runsFrom, ← hrun, List.zip_cons_cons, List.flatMap_cons, List.append_cons]
  refine congrArg₂ _ ?_ ?_
  · rw [show run.index = earlier.length by rw [hrun], hlast, List.append_assoc, List.take_left]
  · rw [hlength, List.length_append, List.length_singleton]

/-! ## The faults of one run -/

theorem faults_of_unstamped (h : run.group = Digest.zero) :
    run.faults maxGroup earlier closed members = [] := by
  have hstamped : run.isStamped = false := by
    rw [Run.isStamped, h]
    decide
  rw [Run.faults, hstamped]
  rfl

theorem Run.isStamped_iff : run.isStamped = true ↔ run.group ≠ Digest.zero := by
  unfold isStamped
  rw [Bool.not_eq_true', ← Bool.not_eq_true, Digest.isZero_iff]

/-- The first thing to be wrong is the claim of an earlier run. -/
theorem head?_faults_of_claimed {first : Run} (h : run.group ≠ Digest.zero)
    (hfirst : (earlier.find? fun first => first.group = run.group) = some first) :
    (run.faults maxGroup earlier closed members).head? =
      some (.nonContiguousGroup run.start run.stop run.group first.start first.stop) := by
  unfold Run.faults
  dsimp only
  rw [if_pos (Run.isStamped_iff.2 h), List.head?_append, List.head?_map, List.head?_filter, hfirst]
  rfl

/-- If no earlier run has the claim, only what is wrong with the run on its own is left. -/
theorem faults_of_unclaimed
    (h : (earlier.find? fun first => first.group = run.group) = none) :
    run.faults maxGroup earlier closed members =
      if closed then run.faults maxGroup [] true members else [] := by
  unfold Run.faults
  dsimp only
  rw [← List.head?_filter, List.head?_eq_none_iff] at h
  rw [h]
  cases run.isStamped <;> cases closed <;> simp

/-- A run fails to close for the first thing that is wrong with it on its own. -/
theorem Assignment.closeRun_eq_error_iff :
    a.closeRun maxGroup members = .error fault ↔
      ((a.nextRun members).faults maxGroup [] true members).head? = some fault := by
  by_cases hzero : claimOf members = Digest.zero
  · rw [closeRun, if_pos hzero, faults_of_unstamped (show (a.nextRun members).group = _ from hzero)]
    simp
  have hstamped : (a.nextRun members).isStamped = true := Run.isStamped_iff.2 hzero
  have hlength : (a.nextRun members).length = members.length := Run.length_mk ..
  unfold closeRun Scan.close Group.check OpenRun.stop Run.faults
  dsimp only
  rw [if_neg hzero, if_pos hstamped, hlength, List.size_toArray]
  by_cases hlen : maxGroup < members.length
  · rw [if_pos hlen, if_pos hlen]
    simp [nextRun]
  rw [if_neg hlen, if_neg hlen]
  by_cases hdigest : Group.ofRecords members = claimOf members
  · simp [nextRun, hdigest]
  · simp [nextRun, hdigest]

/-- What follows a run is reached if nothing is wrong with the run on its own. -/
theorem Assignment.closeRun_bind_eq_error_iff {next : Assignment → Except BatchError Assignment}
    {e : BatchError} :
    (a.closeRun maxGroup members).mapError .grouping >>= next = .error e ↔
      match ((a.nextRun members).faults maxGroup [] true members).head? with
      | some fault => .grouping fault = e
      | none => next (a.push (a.nextRun members)) = .error e := by
  cases hclose : a.closeRun maxGroup members with
  | ok a' =>
    have hnone : ((a.nextRun members).faults maxGroup [] true members).head? = none := by
      rw [Option.eq_none_iff_forall_ne_some]
      intro fault hfault
      rw [closeRun_eq_error_iff.2 hfault] at hclose
      cases hclose
    obtain ⟨-, rfl⟩ := closeRun_eq_ok_iff.1 hclose
    rw [hnone]
    rfl
  | error fault =>
    rw [closeRun_eq_error_iff.1 hclose]
    change Except.error (BatchError.grouping fault) = .error e ↔ BatchError.grouping fault = e
    rw [Except.error.injEq]

/-- A fault names the range of its run, and a claim that is made again is that of an earlier run. -/
theorem Run.of_mem_faults (h : fault ∈ run.faults maxGroup earlier closed members) :
    fault.range = (run.start, run.stop) ∧ run.group ≠ Digest.zero ∧
      ∀ start stop g firstStart firstStop,
        fault = .nonContiguousGroup start stop g firstStart firstStop →
          ∃ first ∈ earlier, first.group = run.group ∧ first.stop = firstStop := by
  unfold Run.faults at h
  dsimp only at h
  by_cases hstamped : run.isStamped = true
  · rw [if_pos hstamped, List.mem_append] at h
    rcases h with h | h
    · obtain ⟨first, hfirst, rfl⟩ := List.mem_map.1 h
      rw [List.mem_filter, decide_eq_true_eq] at hfirst
      refine ⟨rfl, Run.isStamped_iff.1 hstamped, fun start stop g firstStart firstStop heq => ?_⟩
      cases heq
      exact ⟨first, hfirst.1, hfirst.2, rfl⟩
    · have hown : fault = .groupTooLarge run.start run.stop maxGroup ∨
          fault = .digestMismatch run.start run.stop run.group (Group.ofRecords members) := by
        split_ifs at h <;> simp at h <;> tauto
      rcases hown with rfl | rfl
      · exact ⟨rfl, Run.isStamped_iff.1 hstamped, fun _ _ _ _ _ heq => by cases heq⟩
      · exact ⟨rfl, Run.isStamped_iff.1 hstamped, fun _ _ _ _ _ heq => by cases heq⟩
  · rw [if_neg hstamped] at h
    cases h

/-- A fault of some runs is one of a run among them. -/
theorem exists_of_mem_faults (h : fault ∈ faults maxGroup complete parts) :
    ∃ (k : Nat) (run : Run) (members : List Record) (closed : Bool),
      (runsFrom 0 0 parts)[k]? = some run ∧ parts[k]? = some members ∧
      fault ∈ run.faults maxGroup ((runsFrom 0 0 parts).take run.index) closed members := by
  unfold faults at h
  dsimp only at h
  obtain ⟨⟨run, members⟩, hmem, hfault⟩ := List.mem_flatMap.1 h
  obtain ⟨k, hk⟩ := List.mem_iff_getElem?.1 hmem
  rw [List.getElem?_zip_eq_some] at hk
  exact ⟨k, run, members, _, hk.1, hk.2, hfault⟩

/-- The range of a fault is not empty. -/
theorem range_lt_of_mem_faults (h : fault ∈ faults maxGroup complete (maximalRuns records)) :
    fault.range.1 < fault.range.2 := by
  obtain ⟨k, run, members, closed, hrun, hmembers, hfault⟩ := exists_of_mem_faults h
  obtain ⟨hrange, -⟩ := Run.of_mem_faults hfault
  have hpos : 0 < members.length :=
    List.length_pos_of_ne_nil (ne_nil_of_mem_maximalRuns (List.mem_of_getElem? hmembers))
  rw [getElem?_runsFrom, hmembers, Option.map_some, Option.some.injEq] at hrun
  rw [hrange, ← hrun]
  exact Nat.lt_add_of_pos_right hpos

/-- The fault of a run of a batch lies within the batch, and behind the run whose claim it
repeats. -/
theorem of_mem_faults (h : fault ∈ faults maxGroup complete (maximalRuns records)) :
    fault.range.2 ≤ records.length ∧ ∀ start stop g firstStart firstStop,
      fault = .nonContiguousGroup start stop g firstStart firstStop → firstStop < start := by
  obtain ⟨k, run, members, closed, hrun, hmembers, hfault⟩ := exists_of_mem_faults h
  obtain ⟨hrange, hzero, hreused⟩ := Run.of_mem_faults hfault
  have hlayout := hrun
  rw [getElem?_runsFrom, hmembers, Option.map_some, Option.some.injEq] at hlayout
  constructor
  · rw [hrange, ← hlayout]
    dsimp only
    rw [Nat.zero_add, ← length_flatten_take_succ hmembers, ← flatten_maximalRuns records]
    simpa using (List.take_sublist (k + 1) (maximalRuns records)).flatten.length_le
  · rintro start stop g firstStart firstStop rfl
    obtain ⟨first, hfirst, hgroup, rfl⟩ := hreused _ _ _ _ _ rfl
    obtain ⟨i, hi⟩ := List.mem_iff_getElem?.1 hfirst
    rw [List.getElem?_take] at hi
    split_ifs at hi with hindex
    rw [← hlayout, Nat.zero_add] at hindex
    obtain rfl : start = run.start := congrArg Prod.fst hrange
    exact stop_lt_start hindex hi hrun hgroup hzero

end

/-! ## The first fault -/

section

variable {maxGroup : Nat} {fault : Option BatchError} {a : Assignment} {e : BatchError}
  {parts : List (List Record)}

/-- Runs are refused for the first of their faults, or else for what comes behind them. -/
theorem Assignment.takeIn_eq_error_iff : a.takeIn maxGroup fault parts = .error e ↔
    ((faultsBehind maxGroup fault.isNone a.runs.toList a.indices.size parts).head?.map
      BatchError.grouping).or fault = some e := by
  induction parts generalizing a with
  | nil => cases fault <;> simp [takeIn, faultsBehind, runsFrom]
  | cons members later ih =>
    have hpush : (a.push (a.nextRun members)).runs.toList = a.runs.toList ++ [a.nextRun members] :=
      Array.toList_push
    have hnext := @ih (a.push (a.nextRun members))
    rw [hpush, size_indices_push_nextRun] at hnext
    rw [faultsBehind_cons (show a.nextRun members = _ by rw [Array.length_toList]; rfl),
      List.head?_append]
    by_cases hzero : claimOf members = Digest.zero
    · rw [takeIn_cons_of_unstamped hzero,
        faults_of_unstamped (show (a.nextRun members).group = _ from hzero)]
      unfold nextRun at hnext ⊢
      rw [hzero] at hnext ⊢
      exact hnext
    have hfind : Scan.claimant? a (claimOf members) =
        a.runs.toList.find? fun first => first.group = (a.nextRun members).group :=
      Array.find?_toList.symm
    cases hfirst : Scan.claimant? a (claimOf members) with
    | some first =>
      rw [takeIn_cons_of_claimed hzero hfirst, head?_faults_of_claimed hzero (hfind ▸ hfirst)]
      simp [nextRun]
    | none =>
      rw [faults_of_unclaimed (hfind ▸ hfirst)]
      by_cases hcloses : later ≠ [] ∨ fault = none
      · have hclosed : (fault.isNone || !later.isEmpty) = true := by
          simpa [or_comm] using hcloses
        rw [takeIn_cons_of_unclaimed (fun _ => hfirst) hcloses, hclosed, if_pos rfl,
          closeRun_bind_eq_error_iff]
        cases ((a.nextRun members).faults maxGroup [] true members).head? with
        | none => exact hnext
        | some fault => simp
      · -- the last run does not close in front of what cannot be read
        obtain ⟨hlater, hfault⟩ := not_or.1 hcloses
        obtain ⟨e', rfl⟩ := Option.ne_none_iff_exists'.1 hfault
        obtain rfl := not_not.1 hlater
        rw [takeIn_singleton_of_fault fun _ => hfirst]
        simp [faultsBehind, runsFrom]

end

namespace Batch

variable {limits : Limits} {maxGroup : Nat} {batch : Batch} {records : List Record}
  {read : Option BatchError}

/-- A batch is refused for the first fault of the runs of the records that were read, or for the
transaction behind them. -/
theorem segment_eq_error_iff_of_readFrom {e : BatchError}
    (h : readFrom limits 0 batch = (records, read)) : batch.segment limits maxGroup = .error e ↔
      match (faults maxGroup (records.length = batch.length) (maximalRuns records)).head? with
      | some fault => e = .grouping fault
      | none => ∃ tx cause, batch[records.length]? = some tx ∧ tx.record limits = .error cause ∧
          e = .malformed records.length cause := by
  rw [segment_eq_takeIn, h, Assignment.takeIn_eq_error_iff, isNone_of_readFrom h]
  change ((faultsBehind _ _ [] 0 _).head?.map BatchError.grouping).or read = some e ↔ _
  rw [faultsBehind_nil]
  cases (faults maxGroup (records.length = batch.length) (maximalRuns records)).head? with
  | some fault => simp [eq_comm]
  | none => simpa using readFrom_eq_some_iff h

/-- A batch is refused for the first of its faults.  If the records in front of the first
transaction that is none have no fault, that transaction is named. -/
theorem segment_eq_error_iff (limits : Limits) (maxGroup : Nat) (batch : Batch) (e : BatchError) :
    (batch.segment limits maxGroup = .error e ↔ ∃ records : List Record,
      List.Forall₂ (fun tx r => tx.record limits = .ok r) (batch.take records.length) records ∧
      (∀ tx r, batch[records.length]? = some tx → tx.record limits ≠ .ok r) ∧
      match (faults maxGroup (records.length = batch.length) (maximalRuns records)).head? with
      | some fault => e = .grouping fault ∧ fault.range.2 ≤ records.length
      | none => ∃ tx cause, batch[records.length]? = some tx ∧ tx.record limits = .error cause ∧
          e = .malformed records.length cause) ∧
    ∀ start stop g firstStart firstStop,
      batch.segment limits maxGroup =
        .error (.grouping (.nonContiguousGroup start stop g firstStart firstStop)) →
      firstStop < start := by
  constructor
  · constructor
    · intro h
      obtain ⟨hdec, hnext⟩ := exists_readFrom_iff.1 ⟨_, rfl⟩
      refine ⟨_, hdec, hnext, ?_⟩
      rw [segment_eq_error_iff_of_readFrom rfl] at h
      split at h
      · next fault hhead =>
        rw [hhead]
        exact ⟨h, (of_mem_faults (List.mem_of_head? hhead)).1⟩
      · next hhead =>
        rw [hhead]
        exact h
    · rintro ⟨records, hdec, hnext, h⟩
      obtain ⟨read, hread⟩ := exists_readFrom_iff.2 ⟨hdec, hnext⟩
      rw [segment_eq_error_iff_of_readFrom hread]
      split at h
      · exact h.1
      · exact h
  · intro start stop g firstStart firstStop h
    rw [segment_eq_error_iff_of_readFrom rfl] at h
    split at h
    · next fault hhead =>
      cases h
      exact (of_mem_faults (List.mem_of_head? hhead)).2 _ _ _ _ _ rfl
    · obtain ⟨_, _, _, _, h⟩ := h
      cases h

end Batch

end AtomicGroups
