import Mathlib
import AtomicGroups.Proofs.Segment.Scan

/-!
# What is accepted

A batch is cut into runs exactly if all of it can be read, each of its maximal runs may stand and no
two of them claim the same group.  The runs are then the maximal ones, and each position has the
index of its run.
-/

namespace AtomicGroups

variable {maxGroup : Nat} {fault : Option BatchError} {a a' : Assignment} {g : Digest}
  {members : List Record} {parts : List (List Record)}

namespace Scan

theorem claimant?_eq_none_iff : claimant? a g = none ↔ ∀ run ∈ a.runs, run.group ≠ g := by
  unfold claimant?
  rw [Array.find?_eq_none]
  simp only [decide_eq_true_eq, ne_eq]

theorem claimant?_push_eq_none_iff {run : Run} :
    claimant? (a.push run) g = none ↔ claimant? a g = none ∧ run.group ≠ g := by
  rw [claimant?_eq_none_iff, claimant?_eq_none_iff, Assignment.runs_push]
  constructor
  · intro h
    exact ⟨fun earlier hmem => h earlier (Array.mem_push_of_mem _ hmem), h run Array.mem_push_self⟩
  · rintro ⟨h, hrun⟩ earlier hmem
    rcases Array.mem_push.1 hmem with hmem | rfl
    · exact h earlier hmem
    · exact hrun

end Scan

namespace Assignment

/-- The run that is appended for the given members. -/
def nextRun (a : Assignment) (members : List Record) : Run :=
  ⟨a.runs.size, a.indices.size, a.indices.size + members.length, claimOf members⟩

/-- A run closes exactly if it may stand. -/
theorem closeRun_eq_ok_iff : a.closeRun maxGroup members = .ok a' ↔
    RunStands maxGroup members ∧ a' = a.push (a.nextRun members) := by
  unfold closeRun RunStands nextRun
  by_cases hzero : claimOf members = Digest.zero
  · rw [if_pos hzero, hzero]
    simp [eq_comm]
  rw [if_neg hzero]
  unfold Scan.close Group.check OpenRun.stop
  dsimp only
  rw [List.size_toArray]
  by_cases hlen : maxGroup < members.length
  · rw [if_pos hlen]
    simp [hzero, Nat.not_le.2 hlen]
  rw [if_neg hlen]
  by_cases hdigest : Group.ofRecords members = claimOf members
  · rw [if_pos hdigest]
    simp [hdigest, Nat.le_of_not_lt hlen, eq_comm]
  · rw [if_neg hdigest]
    simp [hzero, hdigest]

/-- Nothing is accepted of which not all can be read. -/
theorem takeIn_fault_ne_ok {e : BatchError} : a.takeIn maxGroup (some e) parts ≠ .ok a' := by
  induction parts generalizing a with
  | nil =>
    rw [takeIn]
    simp
  | cons members later ih =>
    intro h
    rw [takeIn, bind_eq_ok_iff] at h
    obtain ⟨-, -, h⟩ := h
    split at h
    · cases h
    · obtain ⟨a₁, -, h⟩ := bind_eq_ok_iff.1 h
      exact ih h

/-- A run is taken in exactly if its claim is new and it may stand. -/
theorem takeIn_cons_eq_ok_iff : a.takeIn maxGroup none (members :: parts) = .ok a' ↔
    (claimOf members ≠ Digest.zero → Scan.claimant? a (claimOf members) = none) ∧
      RunStands maxGroup members ∧
      (a.push (a.nextRun members)).takeIn maxGroup none parts = .ok a' := by
  by_cases hnew : claimOf members ≠ Digest.zero → Scan.claimant? a (claimOf members) = none
  · rw [takeIn_cons_of_unclaimed hnew (.inr rfl), bind_eq_ok_iff]
    simp only [mapError_eq_ok_iff, closeRun_eq_ok_iff]
    constructor
    · rintro ⟨a₁, ⟨hstands, rfl⟩, h⟩
      exact ⟨hnew, hstands, h⟩
    · rintro ⟨-, hstands, h⟩
      exact ⟨_, ⟨hstands, rfl⟩, h⟩
  · refine ⟨fun h => ?_, fun h => absurd h.1 hnew⟩
    rw [Classical.not_imp, ← Ne, Option.ne_none_iff_exists'] at hnew
    obtain ⟨hzero, first, hfirst⟩ := hnew
    rw [takeIn_cons_of_claimed hzero hfirst] at h
    cases h

theorem size_indices_push_nextRun (a : Assignment) (members : List Record) :
    (a.push (a.nextRun members)).indices.size = a.indices.size + members.length := by
  rw [push, nextRun, Array.size_append, Array.size_replicate, Run.length_mk]

theorem runsFrom_cons (a : Assignment) :
    runsFrom a.runs.size a.indices.size (members :: parts) = a.nextRun members ::
      runsFrom (a.push (a.nextRun members)).runs.size (a.push (a.nextRun members)).indices.size
        parts := by
  have hruns : (a.push (a.nextRun members)).runs.size = a.runs.size + 1 := Array.size_push _
  rw [hruns, size_indices_push_nextRun]
  rfl

/-- All runs are taken in exactly if each may stand and no claim is made twice, here or before. -/
theorem takeIn_eq_ok_iff : a.takeIn maxGroup none parts = .ok a' ↔
    (∀ members ∈ parts, claimOf members ≠ Digest.zero →
      Scan.claimant? a (claimOf members) = none) ∧
    (∀ members ∈ parts, RunStands maxGroup members) ∧ ClaimsDistinct parts ∧
    a' = (runsFrom a.runs.size a.indices.size parts).foldl push a := by
  induction parts generalizing a with
  | nil =>
    rw [takeIn]
    simp [ClaimsDistinct, runsFrom, eq_comm]
  | cons members parts ih =>
    have hpush (later : List Record) : Scan.claimant? (a.push (a.nextRun members)) (claimOf later) =
        none ↔ Scan.claimant? a (claimOf later) = none ∧ claimOf members ≠ claimOf later :=
      Scan.claimant?_push_eq_none_iff
    rw [takeIn_cons_eq_ok_iff, ih, runsFrom_cons, List.foldl_cons]
    simp only [ClaimsDistinct, List.forall_mem_cons, List.pairwise_cons, hpush]
    constructor
    · rintro ⟨hnew, hstands, hlater, hall, hdistinct, rfl⟩
      refine ⟨⟨hnew, fun later hmem hzero => (hlater later hmem hzero).1⟩, ⟨hstands, hall⟩,
        ⟨fun later hmem heq => ?_, hdistinct⟩, rfl⟩
      by_contra hzero
      exact (hlater later hmem (heq ▸ hzero)).2 heq
    · rintro ⟨⟨hnew, hlater⟩, ⟨hstands, hall⟩, ⟨hfirst, hdistinct⟩, rfl⟩
      refine ⟨hnew, hstands, fun later hmem hzero => ⟨hlater later hmem hzero, fun heq => ?_⟩, hall,
        hdistinct, rfl⟩
      exact hzero (heq ▸ hfirst later hmem heq)

theorem toList_runs_foldl_push (a : Assignment) (runs : List Run) :
    (runs.foldl push a).runs.toList = a.runs.toList ++ runs := by
  induction runs generalizing a with
  | nil => exact (List.append_nil _).symm
  | cons run runs ih =>
    rw [List.foldl_cons, ih, runs_push, Array.toList_push, List.append_assoc]
    rfl

theorem toList_indices_foldl_push (a : Assignment) (runs : List Run) :
    (runs.foldl push a).indices.toList = a.indices.toList ++ indicesOf runs := by
  induction runs generalizing a with
  | nil => exact (List.append_nil _).symm
  | cons run runs ih =>
    rw [List.foldl_cons, ih, toList_indices_push, List.append_assoc]
    rfl

theorem toList_runs_ofRuns (runs : List Run) : (ofRuns runs).runs.toList = runs :=
  toList_runs_foldl_push empty runs

theorem toList_indices_ofRuns (runs : List Run) : (ofRuns runs).indices.toList = indicesOf runs :=
  toList_indices_foldl_push empty runs

/-- Where there is one run, all positions have its index. -/
theorem indices_ofRuns_singleton (n : Nat) (g : Digest) :
    (ofRuns [⟨0, 0, n, g⟩]).indices = Array.replicate n 0 := by
  rw [← Array.toList_inj, toList_indices_ofRuns, Array.toList_replicate]
  exact List.append_nil _

end Assignment

namespace Batch

variable {limits : Limits} {batch : Batch} {records : List Record}

/-- If all of a batch can be read, it is accepted exactly if its maximal runs may stand side by
side. -/
theorem segment_of_decodes (h : batch.Decodes limits records) :
    batch.segment limits maxGroup = .ok a ↔
      (∀ members ∈ maximalRuns records, RunStands maxGroup members) ∧
      ClaimsDistinct (maximalRuns records) ∧
      a = Assignment.ofRuns (runsFrom 0 0 (maximalRuns records)) := by
  rw [segment_eq_takeIn, readFrom_eq_none_iff.2 h, Assignment.takeIn_eq_ok_iff]
  exact and_iff_right fun members _ _ => rfl

/-- A batch that claims one group is accepted exactly if it is short enough and composes to the
group.  It is then one run. -/
theorem segment_of_claim (h : batch.Decodes limits records) (hclaim : Claim g records)
    (hzero : g ≠ Digest.zero) : batch.segment limits maxGroup = .ok a ↔
      (records.length ≤ maxGroup ∧ Group.ofRecords records = g) ∧
        a = Assignment.ofRuns [⟨0, 0, records.length, g⟩] := by
  have hlayout : runsFrom 0 0 [records] = [⟨0, 0, records.length, g⟩] := by
    rw [runsFrom, runsFrom, hclaim.claimOf_eq, Nat.zero_add]
  rw [segment_of_decodes h, hclaim.maximalRuns_eq hzero, hlayout]
  simp [RunStands, ClaimsDistinct, hclaim.claimOf_eq, hzero]

theorem decodes_of_segment (h : batch.segment limits maxGroup = .ok a) :
    ∃ records, batch.Decodes limits records := by
  rw [segment_eq_takeIn] at h
  cases hfault : (batch.readFrom limits 0).2 with
  | none => exact ⟨_, readFrom_eq_none_iff.1 (Prod.ext rfl hfault)⟩
  | some e =>
    rw [hfault] at h
    exact absurd h Assignment.takeIn_fault_ne_ok

/-- In a batch that was accepted, the records that claim a group are one run, which composes to
it. -/
theorem exists_run_of_claim (hdec : batch.Decodes limits records)
    (h : batch.segment limits maxGroup = .ok a) {r : Record} (hr : r ∈ records)
    (hzero : r.group ≠ Digest.zero) : ∃ run ∈ a.runs, run.stop ≤ records.length ∧
      (records.drop run.start).take run.length ∈ maximalRuns records ∧
      Group.ofRecords ((records.drop run.start).take run.length) = r.group ∧
      ∀ position s, records[position]? = some s →
        (run.contains position = true ↔ s.group = r.group) := by
  obtain ⟨hstands, hdistinct, rfl⟩ := (segment_of_decodes hdec).1 h
  rw [← flatten_maximalRuns records, List.mem_flatten] at hr
  obtain ⟨members, hmembers, hr⟩ := hr
  have hclaim : r.group = claimOf members := (claim_of_mem_maximalRuns hmembers).2 r hr
  have hclaims : ∀ part ∈ maximalRuns records, Claim (claimOf part) part :=
    fun part hpart => claim_of_mem_maximalRuns hpart
  obtain ⟨earlier, later, hparts⟩ := List.append_of_mem hmembers
  have hrecords : records = earlier.flatten ++ (members ++ later.flatten) := by
    rw [← flatten_maximalRuns records, hparts, List.flatten_append, List.flatten_cons]
  have hslice : (records.drop earlier.flatten.length).take (Run.length ⟨earlier.length,
      earlier.flatten.length, earlier.flatten.length + members.length, claimOf members⟩) =
      members := by
    rw [Run.length_mk, hrecords, List.drop_left, List.take_left]
  refine ⟨⟨earlier.length, earlier.flatten.length, earlier.flatten.length + members.length,
    claimOf members⟩, ?_, ?_, ?_, ?_, ?_⟩
  · rw [← Array.mem_toList_iff, Assignment.toList_runs_ofRuns, hparts, runsFrom_append, runsFrom,
      Nat.zero_add, Nat.zero_add]
    simp
  · rw [hrecords, List.length_append, List.length_append]
    dsimp only
    omega
  · rwa [hslice]
  · rw [hslice, hclaim]
    rcases hstands members hmembers with hunstamped | ⟨-, hcomposes⟩
    · exact absurd (hclaim.trans hunstamped) hzero
    · exact hcomposes
  · intro position s hs
    rw [hrecords] at hs
    rw [hparts] at hclaims hdistinct
    rw [hclaim] at hzero ⊢
    rw [Run.contains_iff]
    exact claims_iff_of_getElem? hclaims hdistinct hzero hs

/-- A batch is accepted exactly if each transaction is decoded, each maximal run may stand and no
group is claimed by two of them.  What is given then are the maximal runs in order, with the index
of its run for each position. -/
theorem segment_eq_ok_iff (limits : Limits) (maxGroup : Nat) (batch : Batch) (a : Assignment) :
    batch.segment limits maxGroup = .ok a ↔ ∃ records,
      List.Forall₂ (fun tx r => tx.record limits = .ok r) batch records ∧
      (∀ members ∈ maximalRuns records, RunStands maxGroup members) ∧
      ClaimsDistinct (maximalRuns records) ∧
      a.runs.toList = runsFrom 0 0 (maximalRuns records) ∧
      a.indices.size = batch.length ∧
      ∀ position < batch.length, ∃ run ∈ a.runs, run.contains position = true ∧
        a.indices[position]? = some run.index := by
  have hcovers (records : List Record) (position : Nat) (hp : position < records.length) :
      ∃ run ∈ runsFrom 0 0 (maximalRuns records), run.contains position = true ∧
        (indicesOf (runsFrom 0 0 (maximalRuns records)))[position]? = some run.index := by
    rw [← flatten_maximalRuns records] at hp
    simpa using exists_contains_of_runsFrom 0 0 position hp
  have hlen (records : List Record) (hdec : batch.Decodes limits records) :
      (indicesOf (runsFrom 0 0 (maximalRuns records))).length = batch.length := by
    rw [length_indicesOf_runsFrom, flatten_maximalRuns, hdec.length_eq]
  constructor
  · intro h
    obtain ⟨records, hdec⟩ := decodes_of_segment h
    obtain ⟨hstands, hdistinct, rfl⟩ := (segment_of_decodes hdec).1 h
    refine ⟨records, hdec, hstands, hdistinct, Assignment.toList_runs_ofRuns _, ?_, ?_⟩
    · rw [← Array.length_toList, Assignment.toList_indices_ofRuns, hlen records hdec]
    · intro position hp
      rw [hdec.length_eq] at hp
      obtain ⟨run, hrun, hcontains, hindex⟩ := hcovers records position hp
      refine ⟨run, ?_, hcontains, ?_⟩
      · rwa [← Array.mem_toList_iff, Assignment.toList_runs_ofRuns]
      · rwa [← Array.getElem?_toList, Assignment.toList_indices_ofRuns]
  · rintro ⟨records, hdec, hstands, hdistinct, hruns, hsize, hindices⟩
    refine (segment_of_decodes hdec).2 ⟨hstands, hdistinct, ?_⟩
    have hlist : a.indices.toList = indicesOf (runsFrom 0 0 (maximalRuns records)) := by
      refine List.ext_getElem? fun position => ?_
      by_cases hp : position < batch.length
      · -- the run named for the position is the one that covers it
        obtain ⟨run, hrun, hcontains, hindex⟩ := hindices position hp
        obtain ⟨run', hrun', hcontains', hindex'⟩ :=
          hcovers records position (hdec.length_eq ▸ hp)
        rw [← Array.mem_toList_iff, hruns] at hrun
        rw [Array.getElem?_toList, hindex, hindex',
          eq_of_contains_of_runsFrom hrun hrun' hcontains hcontains']
      · rw [List.getElem?_eq_none (by rw [Array.length_toList]; omega),
          List.getElem?_eq_none (by rw [hlen records hdec]; omega)]
    rw [← Assignment.toList_indices_ofRuns, Array.toList_inj] at hlist
    rw [← Assignment.toList_runs_ofRuns (runsFrom _ _ _), Array.toList_inj] at hruns
    obtain ⟨indices, runs⟩ := a
    exact congrArg₂ Assignment.mk hlist hruns

end Batch

end AtomicGroups
