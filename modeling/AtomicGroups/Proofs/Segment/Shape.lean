import Mathlib
import AtomicGroups.Proofs.Group.Stamping
import AtomicGroups.Proofs.Record.Identity
import AtomicGroups.Segment.Shape

/-!
# The shape of what is given

A service can check on its own answers that indices count the runs without a gap, that a group fills
one stretch and that a stamp keeps the payload.  The checks never fail.

The check of the groups goes through the positions once and has a memory of its own.  In front of
each run, this memory holds groups of earlier runs (`contiguousFrom_groups`), which the runs of an
accepted batch do not claim again.
-/

namespace AtomicGroups

/-! ## Indices without a gap -/

section

variable {parts : List (List Record)} {indices : List Nat}

theorem denseIndices_iff : denseIndices indices = true ↔
    (∀ i ∈ indices.head?, i = 0) ∧ indices.IsChain fun i j => j = i ∨ j = i + 1 := by
  have hchain (l : List Nat) : ((l.zip l.tail).all fun p => p.2 = p.1 || p.2 = p.1 + 1) = true ↔
      l.IsChain fun i j => j = i ∨ j = i + 1 := by
    induction l with
    | nil => simp
    | cons i l ih =>
      cases l with
      | nil => simp
      | cons j l =>
        rw [List.isChain_cons_cons, ← ih]
        simp
  change (indices.head?.all (· = 0) && (indices.zip indices.tail).all _) = true ↔ _
  rw [Bool.and_eq_true, hchain, Option.all_eq_true]
  simp

theorem head?_indicesOf (index start : Nat) (hne : ∀ part ∈ parts, part ≠ []) :
    ∀ i ∈ (indicesOf (runsFrom index start parts)).head?, i = index := by
  cases parts with
  | nil => simp [indicesOf, runsFrom]
  | cons members parts =>
    have hmembers : members.length ≠ 0 := by simpa using hne members List.mem_cons_self
    simp [indicesOf, runsFrom, Run.length_mk, List.head?_replicate, hmembers]

/-- From one position to the next, the index stays or goes up by one. -/
theorem isChain_indicesOf (index start : Nat) (hne : ∀ part ∈ parts, part ≠ []) :
    (indicesOf (runsFrom index start parts)).IsChain fun i j => j = i ∨ j = i + 1 := by
  induction parts generalizing index start with
  | nil => exact .nil
  | cons members parts ih =>
    obtain ⟨-, hparts⟩ := List.forall_mem_cons.1 hne
    rw [runsFrom, indicesOf, List.flatMap_cons, List.isChain_append]
    refine ⟨List.isChain_replicate_of_rel _ (.inl rfl), ih _ _ hparts, fun i hi j hj => .inr ?_⟩
    rw [List.eq_of_mem_replicate (List.mem_of_mem_getLast? hi)]
    exact head?_indicesOf _ _ hparts j hj

theorem denseIndices_indicesOf (start : Nat) (hne : ∀ part ∈ parts, part ≠ []) :
    denseIndices (indicesOf (runsFrom 0 start parts)) = true :=
  denseIndices_iff.2 ⟨head?_indicesOf 0 start hne, isChain_indicesOf 0 start hne⟩

end

/-! ## Groups in one stretch -/

section

variable {closed later : List Digest} {previous : Option Digest} {g : Digest} {runs : List Run}

/-- More positions with the last group change nothing. -/
theorem contiguousFrom_replicate_self (n : Nat) :
    contiguousFrom closed (some g) (List.replicate n g ++ later) =
      contiguousFrom closed (some g) later := by
  induction n with
  | zero => rfl
  | succ n ih =>
    rw [List.replicate_succ, List.cons_append, contiguousFrom]
    -- groups that claim nothing end stretches, but leave nothing in memory
    cases hg : g.isZero <;> simp [hg, ih, Option.filter]

/-- A stretch of a new group ends the stretch in front of it. -/
theorem contiguousFrom_replicate {n : Nat} (hn : 0 < n)
    (h : g ≠ Digest.zero → g ∉ closed ∧ previous ≠ some g) :
    contiguousFrom closed previous (List.replicate n g ++ later) =
      contiguousFrom ((previous.filter fun p => !p.isZero).toList ++ closed) (some g) later := by
  obtain ⟨n, rfl⟩ := Nat.exists_eq_succ_of_ne_zero hn.ne'
  have hprevious : (decide (previous = some g) && !g.isZero) = false := by
    by_cases hg : g = Digest.zero
    · simp [hg]
    · simp [(h hg).2]
  have hclosed : (!g.isZero &&
      ((previous.filter fun p => !p.isZero).toList ++ closed).contains g) = false := by
    by_cases hg : g = Digest.zero
    · simp [hg]
    · simp [(h hg).1, (h hg).2]
  rw [List.replicate_succ, List.cons_append, contiguousFrom, hprevious]
  dsimp only
  rw [hclosed]
  exact contiguousFrom_replicate_self n

/-- Runs with distinct groups pass the check behind a stretch and stretches that have ended if they
claim none of their groups again. -/
theorem contiguousFrom_groups (hlength : ∀ run ∈ runs, 0 < run.length)
    (hdistinct : runs.Pairwise fun a b => a.group = b.group → a.group = Digest.zero)
    (hnew : ∀ run ∈ runs, run.group ≠ Digest.zero →
      run.group ∉ closed ∧ previous ≠ some run.group) :
    contiguousFrom closed previous
      (runs.flatMap fun run => List.replicate run.length run.group) = true := by
  induction runs generalizing closed previous with
  | nil => rfl
  | cons run runs ih =>
    rw [List.forall_mem_cons] at hlength hnew
    rw [List.pairwise_cons] at hdistinct
    rw [List.flatMap_cons, contiguousFrom_replicate hlength.1 hnew.1]
    refine ih hlength.2 hdistinct.2 fun later hlater hzero => ?_
    obtain ⟨hclosed, hprevious⟩ := hnew.2 later hlater hzero
    refine ⟨?_, fun heq => ?_⟩
    · simp [hclosed, hprevious]
    · have heq : run.group = later.group := Option.some.inj heq
      exact hzero (heq ▸ hdistinct.1 later hlater heq)

end

/-! ## Looking up runs -/

section

variable {parts : List (List Record)} {run : Run} {position : Nat}

theorem map_group_runsFrom (index start : Nat) (parts : List (List Record)) :
    (runsFrom index start parts).map Run.group = parts.map claimOf := by
  induction parts generalizing index start with
  | nil => rfl
  | cons members parts ih => rw [runsFrom, List.map_cons, List.map_cons, ih]

/-- Run by run, the positions have the groups that the records at them claim. -/
theorem flatMap_group_runsFrom (index start : Nat)
    (hclaims : ∀ part ∈ parts, Claim (claimOf part) part) :
    ((runsFrom index start parts).flatMap fun run => List.replicate run.length run.group) =
      parts.flatten.map Record.group := by
  induction parts generalizing index start with
  | nil => rfl
  | cons members parts ih =>
    obtain ⟨hmembers, hparts⟩ := List.forall_mem_cons.1 hclaims
    have hgroups : members.map Record.group = List.replicate members.length (claimOf members) :=
      List.map_eq_replicate_iff.2 hmembers.2
    rw [runsFrom, List.flatMap_cons, ih _ _ hparts, List.flatten_cons, List.map_append, hgroups,
      Run.length_mk]

/-- A run is found at its index. -/
theorem getElem?_index_of_mem_runsFrom (h : run ∈ runsFrom 0 0 parts) :
    (runsFrom 0 0 parts)[run.index]? = some run := by
  obtain ⟨k, hk⟩ := List.mem_iff_getElem?.1 h
  have hlayout := hk
  rw [getElem?_runsFrom, Option.map_eq_some_iff] at hlayout
  obtain ⟨members, -, rfl⟩ := hlayout
  rwa [Nat.zero_add] at hk ⊢

namespace Assignment

theorem runOf?_ofRuns (runs : List Run) (position : Nat) :
    (ofRuns runs).runOf? position = (indicesOf runs)[position]?.bind fun index => runs[index]? := by
  change ((ofRuns runs).indices[position]?.bind fun index => (ofRuns runs).runs[index]?) = _
  simp only [← Array.getElem?_toList, toList_indices_ofRuns, toList_runs_ofRuns]

/-- The run that is looked up for a position is the one that the position lies in. -/
theorem exists_runOf? (hp : position < parts.flatten.length) :
    ∃ run ∈ runsFrom 0 0 parts, (ofRuns (runsFrom 0 0 parts)).runOf? position = some run ∧
      ∀ run' ∈ runsFrom 0 0 parts, run'.contains position = true ↔ run' = run := by
  obtain ⟨run, hrun, hcontains, hindex⟩ := exists_contains_of_runsFrom 0 0 position hp
  rw [Nat.zero_add] at hcontains
  refine ⟨run, hrun, ?_, fun run' hrun' => ⟨fun hcontains' => ?_, fun heq => ?_⟩⟩
  · rw [runOf?_ofRuns, hindex]
    exact getElem?_index_of_mem_runsFrom hrun
  · exact eq_of_contains_of_runsFrom hrun' hrun hcontains' hcontains
  · rwa [heq]

/-- Behind the last position there is no run. -/
theorem runOf?_eq_none (hp : parts.flatten.length ≤ position) :
    (ofRuns (runsFrom 0 0 parts)).runOf? position = none := by
  rw [runOf?_ofRuns, List.getElem?_eq_none]
  · rfl
  · rwa [length_indicesOf_runsFrom]

end Assignment

end

/-! ## What is given -/

theorem payloadPreserved_iff {before after : List Record} : payloadPreserved before after = true ↔
    List.Forall₂ (fun r s => r.fields = s.fields) before after := by
  unfold payloadPreserved
  rw [Bool.and_eq_true, decide_eq_true_eq, List.all_eq_true, List.forall₂_iff_zip]
  simp [Record.samePayload_iff]

namespace Batch

variable {limits : Limits} {maxGroup : Nat} {batch out : Batch} {a : Assignment}

/-- Each position of an accepted batch has the group that its record claims. -/
theorem groups_of_segment {records : List Record} (h : batch.segment limits maxGroup = .ok a)
    (hdec : batch.Decodes limits records) : a.groups = records.map Record.group := by
  obtain ⟨-, -, rfl⟩ := (segment_of_decodes hdec).1 h
  unfold Assignment.groups
  rw [Assignment.toList_runs_ofRuns,
    flatMap_group_runsFrom 0 0 fun _ hpart => claim_of_mem_maximalRuns hpart, flatten_maximalRuns]

/-- The indices and the groups of an accepted batch pass the checks. -/
theorem shape_of_segment (h : batch.segment limits maxGroup = .ok a) :
    denseIndices a.indices.toList = true ∧ a.indices.size = batch.length ∧
      contiguousGroups a.groups = true ∧ a.groups.length = batch.length ∧
      ∀ records, batch.records limits = .ok records → a.groups = records.map Record.group := by
  obtain ⟨records, hdec⟩ := decodes_of_segment h
  have hgroups := groups_of_segment h hdec
  obtain ⟨-, hdistinct, rfl⟩ := (segment_of_decodes hdec).1 h
  have hne : ∀ part ∈ maximalRuns records, part ≠ [] := fun _ hpart =>
    ne_nil_of_mem_maximalRuns hpart
  refine ⟨?_, ?_, ?_, by rw [hgroups, List.length_map, hdec.length_eq], fun records' hrecords' =>
    groups_of_segment h (records_eq_ok_iff.1 hrecords')⟩
  · rw [Assignment.toList_indices_ofRuns]
    exact denseIndices_indicesOf 0 hne
  · rw [← Array.length_toList, Assignment.toList_indices_ofRuns, length_indicesOf_runsFrom,
      flatten_maximalRuns, hdec.length_eq]
  · unfold Assignment.groups
    rw [Assignment.toList_runs_ofRuns]
    refine contiguousFrom_groups (fun run hrun => ?_) ?_ (by simp)
    · obtain ⟨hlt, -⟩ := bounds_of_mem_runsFrom hne hrun
      exact Nat.sub_pos_of_lt hlt
    · rw [← List.pairwise_map (f := Run.group)
        (R := fun g h : Digest => g = h → g = Digest.zero), map_group_runsFrom, List.pairwise_map]
      exact hdistinct

/-- What is looked up in what is given for a batch. -/
theorem runOf?_of_segment (h : batch.segment limits maxGroup = .ok a) (position : Nat) :
    (position < batch.length → ∃ run ∈ a.runs, a.runOf? position = some run ∧
      ∀ run' ∈ a.runs, run'.contains position = true ↔ run' = run) ∧
    (batch.length ≤ position → a.runOf? position = none) := by
  obtain ⟨records, hdec⟩ := decodes_of_segment h
  obtain ⟨-, -, rfl⟩ := (segment_of_decodes hdec).1 h
  have hlength : batch.length = (maximalRuns records).flatten.length := by
    rw [hdec.length_eq, flatten_maximalRuns]
  simp only [← Array.mem_toList_iff, Assignment.toList_runs_ofRuns, hlength]
  exact ⟨Assignment.exists_runOf?, Assignment.runOf?_eq_none⟩

/-- What is read from a batch that was stamped are its records with the group. -/
theorem Decodes.eq_map_withGroup {g : Digest} {records after : List Record}
    (h : batch.Decodes limits records) (hafter : (stamped g records).Decodes limits after) :
    after = records.map fun r => r.withGroup g :=
  hafter.unique <| decodes_stamped h.fieldsFit fun _ hr =>
    hasRoom_of_mem_stamped h.fieldsFit (fun _ htx => hafter.exists_record htx) hr

/-- A stamp keeps the payload of each record that can be read again. -/
theorem payloadPreserved_of_stamp (hout : batch.stamp limits = .ok out)
    {before after : List Record} (hbefore : batch.records limits = .ok before)
    (hafter : out.records limits = .ok after) : payloadPreserved before after = true := by
  obtain ⟨records, hdec, rfl⟩ := stamp_eq_ok_iff.1 hout
  obtain rfl := hdec.unique (records_eq_ok_iff.1 hbefore)
  rw [hdec.eq_map_withGroup (records_eq_ok_iff.1 hafter), payloadPreserved_iff,
    List.forall₂_map_right_iff, List.forall₂_same]
  exact fun r _ => rfl

end Batch

/-- Whatever its configuration, the checks of a service on its answers never fail.  Where a batch is
cut into runs, there is an index for each position, indices have no gap and each group fills one
stretch, where the groups are those that the records claim; the run looked up for a position is the
only one that has it, and behind the last position there is none.  Where a batch is stamped and can
be read again, the payload is the same. -/
theorem Service.answers_wellShaped (s : Service) (batch : Batch) :
    (∀ a, batch.segment s.limits s.config.maxGroup = .ok a →
      denseIndices a.indices.toList = true ∧ a.indices.size = batch.length ∧
      contiguousGroups a.groups = true ∧ a.groups.length = batch.length ∧
      (∀ records, batch.records s.limits = .ok records → a.groups = records.map Record.group) ∧
      ∀ position,
        (position < batch.length → ∃ run ∈ a.runs, a.runOf? position = some run ∧
          ∀ run' ∈ a.runs, run'.contains position = true ↔ run' = run) ∧
        (batch.length ≤ position → a.runOf? position = none)) ∧
    ∀ out before after, batch.stamp s.limits = .ok out → batch.records s.limits = .ok before →
      out.records s.limits = .ok after → payloadPreserved before after = true := by
  constructor
  · intro a ha
    obtain ⟨hdense, hsize, hcontiguous, hlength, hgroups⟩ := Batch.shape_of_segment ha
    exact ⟨hdense, hsize, hcontiguous, hlength, hgroups, Batch.runOf?_of_segment ha⟩
  · intro out before after hout hbefore hafter
    exact Batch.payloadPreserved_of_stamp hout hbefore hafter

/-- Two records without a group are two runs, and keep their payload when they are stamped. -/
theorem Service.answers_wellShaped_oneField :
    let tx : Transaction := ⟨[0x81, 0xa1, 0x61, 0x01]⟩
    ∃ a out before after, Batch.segment {} 16 [tx, tx] = .ok a ∧
      denseIndices a.indices.toList = true ∧ contiguousGroups a.groups = true ∧
      a.runOf? 1 = some ⟨1, 1, 2, Digest.zero⟩ ∧ a.runOf? 2 = none ∧
      Batch.stamp {} [tx, tx] = .ok out ∧ Batch.records {} [tx, tx] = .ok before ∧
      out.records {} = .ok after ∧ payloadPreserved before after = true := by
  intro tx
  have hdec : Batch.Decodes {} [tx, tx] [Record.oneField, Record.oneField] :=
    Batch.decodes_oneField_twice
  have hruns : maximalRuns [Record.oneField, Record.oneField] =
      [[Record.oneField], [Record.oneField]] := by
    rw [maximalRuns_cons_of_unstamped rfl, maximalRuns_cons_of_unstamped rfl, maximalRuns_nil]
  have hclaim : claimOf [Record.oneField] = Digest.zero := rfl
  have hsegment : Batch.segment {} 16 [tx, tx] =
      .ok (Assignment.ofRuns [⟨0, 0, 1, Digest.zero⟩, ⟨1, 1, 2, Digest.zero⟩]) := by
    rw [Batch.segment_of_decodes hdec, hruns]
    refine ⟨fun members hmembers => .inl ?_, by simp [ClaimsDistinct, hclaim], rfl⟩
    rw [show members = [Record.oneField] by simpa using hmembers, hclaim]
  have hroom : ∀ r ∈ [Record.oneField, Record.oneField],
      HasRoom {} (Group.ofRecords [Record.oneField, Record.oneField]) r := by
    simpa using Batch.hasRoom_oneField _
  have hafter := Batch.decodes_stamped hdec.fieldsFit hroom
  obtain ⟨hshape, hpayload⟩ := answers_wellShaped standard [tx, tx]
  obtain ⟨hdense, -, hcontiguous, -, -, hlookup⟩ := hshape _ hsegment
  obtain ⟨run, -, hrun, hunique⟩ := (hlookup 1).1 (by decide)
  have hsecond : (⟨1, 1, 2, Digest.zero⟩ : Run) = run :=
    (hunique _ (by simp [← Array.mem_toList_iff, Assignment.toList_runs_ofRuns])).1 (by decide)
  have hout := Batch.stamp_of_decodes hdec
  have hbefore := Batch.records_eq_ok_iff.2 hdec
  exact ⟨_, _, _, _, hsegment, hdense, hcontiguous, hsecond ▸ hrun, (hlookup 2).2 (by decide), hout,
    hbefore, Batch.records_eq_ok_iff.2 hafter,
    hpayload _ _ _ hout hbefore (Batch.records_eq_ok_iff.2 hafter)⟩

end AtomicGroups
