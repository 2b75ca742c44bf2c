import Mathlib
import AtomicGroups.Proofs.Group.Stamping
import AtomicGroups.Segment.Concatenation

/-!
# Batches one behind the other

Two batches that share no claim are cut into the runs of the first and behind them the runs of the
second (`Batch.segment_append_of_segment`).  Where no run of a batch spans a position, the batch can
be cut apart there and each part is accepted on its own (`Batch.exists_segment_of_append`).

Both rest on the maximal runs of the records: they are those of the two parts as soon as the record
behind the position does not continue the one in front of it.
-/

namespace AtomicGroups

/-! ## Layouts one behind the other -/

/-- Where runs are laid out does not change what they look like from their first one on. -/
theorem runsFrom_eq_map_shift (index start : Nat) (parts : List (List Record)) :
    runsFrom index start parts = (runsFrom 0 0 parts).map (Run.shift index start) := by
  refine List.ext_getElem? fun k => ?_
  rw [List.getElem?_map, getElem?_runsFrom, getElem?_runsFrom, Option.map_map]
  simp [Function.comp_def, Run.shift, Nat.add_assoc]

theorem indicesOf_map_shift (index start : Nat) (runs : List Run) :
    indicesOf (runs.map (Run.shift index start)) = (indicesOf runs).map (index + ·) := by
  unfold indicesOf
  rw [List.flatMap_map, List.map_flatMap]
  simp only [List.map_replicate, Run.length_shift]
  rfl

namespace Assignment

variable {a b : Assignment}

theorem ext_toList (hindices : a.indices.toList = b.indices.toList)
    (hruns : a.runs.toList = b.runs.toList) : a = b := by
  obtain ⟨indices, runs⟩ := a
  exact congrArg₂ mk (Array.toList_inj.1 hindices) (Array.toList_inj.1 hruns)

theorem toList_indices_append (a b : Assignment) : (a ++ b).indices.toList =
    a.indices.toList ++ b.indices.toList.map (a.runs.size + ·) := by
  change (a.indices ++ b.indices.map _).toList = _
  rw [Array.toList_append, Array.toList_map]

theorem toList_runs_append (a b : Assignment) : (a ++ b).runs.toList =
    a.runs.toList ++ b.runs.toList.map (Run.shift a.runs.size a.indices.size) := by
  change (a.runs ++ b.runs.map _).toList = _
  rw [Array.toList_append, Array.toList_map]

/-- The runs of more parts are those of the first parts and behind them those of the others. -/
theorem ofRuns_runsFrom_append (parts later : List (List Record)) :
    ofRuns (runsFrom 0 0 (parts ++ later)) =
      ofRuns (runsFrom 0 0 parts) ++ ofRuns (runsFrom 0 0 later) := by
  have hruns : (ofRuns (runsFrom 0 0 parts)).runs.size = parts.length := by
    rw [← Array.length_toList, toList_runs_ofRuns, length_runsFrom]
  have hindices : (ofRuns (runsFrom 0 0 parts)).indices.size = parts.flatten.length := by
    rw [← Array.length_toList, toList_indices_ofRuns, length_indicesOf_runsFrom]
  have hlayout : runsFrom 0 0 (parts ++ later) = runsFrom 0 0 parts ++
      (runsFrom 0 0 later).map (Run.shift parts.length parts.flatten.length) := by
    rw [runsFrom_append, Nat.zero_add, Nat.zero_add, runsFrom_eq_map_shift parts.length]
  refine ext_toList ?_ ?_
  · rw [toList_indices_append, hruns]
    simp only [toList_indices_ofRuns]
    rw [hlayout, ← indicesOf_map_shift parts.length parts.flatten.length]
    exact List.flatMap_append
  · rw [toList_runs_append, hruns, hindices]
    simp only [toList_runs_ofRuns]
    exact hlayout

/-! ## Cutting apart -/

/-- Whether every run has positions, all of them among those that the assignment is about. -/
def IsWithin (a : Assignment) : Prop :=
  ∀ r ∈ a.runs, r.start < r.stop ∧ r.stop ≤ a.indices.size

theorem before_append (ha : a.IsWithin) (hb : b.IsWithin) : (a ++ b).before a.indices.size = a := by
  have hfront : a.runs.toList.filter (fun r => r.stop ≤ a.indices.size) = a.runs.toList := by
    rw [List.filter_eq_self]
    exact fun r hr => decide_eq_true (ha r (Array.mem_def.2 hr)).2
  have hback : (b.runs.toList.map (Run.shift a.runs.size a.indices.size)).filter
      (fun r => r.stop ≤ a.indices.size) = [] := by
    rw [List.filter_eq_nil_iff]
    intro r hr
    obtain ⟨r', hr', rfl⟩ := List.mem_map.1 hr
    have hpos := (hb r' (Array.mem_def.2 hr')).1
    rw [Run.shift, decide_eq_true_eq]
    dsimp only
    omega
  refine ext_toList ?_ ?_ <;> unfold before <;> dsimp only
  · rw [Array.take_eq_extract, Array.toList_extract, toList_indices_append]
    simp
  · rw [Array.toList_filter, toList_runs_append, List.filter_append, hfront, hback,
      List.append_nil]

theorem behind_append (ha : a.IsWithin) (hb : b.IsWithin) : (a ++ b).behind a.indices.size = b := by
  have hfront : a.runs.toList.filter (fun r => a.indices.size ≤ r.start) = [] := by
    rw [List.filter_eq_nil_iff]
    intro r hr
    have hbounds := ha r (Array.mem_def.2 hr)
    rw [decide_eq_true_eq]
    omega
  have hback : (b.runs.toList.map (Run.shift a.runs.size a.indices.size)).filter
      (fun r => a.indices.size ≤ r.start) =
        b.runs.toList.map (Run.shift a.runs.size a.indices.size) := by
    rw [List.filter_eq_self]
    intro r hr
    obtain ⟨r', -, rfl⟩ := List.mem_map.1 hr
    exact decide_eq_true (Nat.le_add_right _ _)
  refine ext_toList ?_ ?_ <;> unfold behind <;> dsimp only <;> rw [before_append ha hb]
  · rw [Array.toList_map, Array.toList_drop, toList_indices_append,
      List.drop_left' Array.length_toList, List.map_map]
    simp [Function.comp_def]
  · rw [Array.toList_map, Array.toList_filter, toList_runs_append, List.filter_append, hfront,
      hback, List.nil_append, List.map_map]
    simp [Function.comp_def]

end Assignment

namespace Batch

variable {limits : Limits} {maxGroup : Nat} {a b : Batch} {A B C : Assignment}
  {records records' : List Record}

/-- What is given for a batch is about its positions. -/
theorem isWithin_of_segment (h : a.segment limits maxGroup = .ok A) :
    A.indices.size = a.length ∧ A.IsWithin := by
  obtain ⟨records, hdec⟩ := decodes_of_segment h
  obtain ⟨-, -, rfl⟩ := (segment_of_decodes hdec).1 h
  have hsize : (Assignment.ofRuns (runsFrom 0 0 (maximalRuns records))).indices.size =
      (maximalRuns records).flatten.length := by
    rw [← Array.length_toList, Assignment.toList_indices_ofRuns, length_indicesOf_runsFrom]
  refine ⟨?_, fun run hrun => ?_⟩
  · rw [hsize, flatten_maximalRuns, hdec.length_eq]
  · rw [← Array.mem_toList_iff, Assignment.toList_runs_ofRuns] at hrun
    rw [hsize]
    exact bounds_of_mem_runsFrom (fun part hpart => ne_nil_of_mem_maximalRuns hpart) hrun

/-- Two batches of which the second does not continue the last run of the first are accepted
together exactly if each is accepted and no claim of one is a claim of the other. -/
theorem segment_append_of_decodes (ha : a.Decodes limits records) (hb : b.Decodes limits records')
    (h : ∀ r ∈ records.getLast?, ∀ s ∈ records'.head?, continues r s = false) :
    (a ++ b).segment limits maxGroup = .ok C ↔
      ∃ A B, a.segment limits maxGroup = .ok A ∧ b.segment limits maxGroup = .ok B ∧
        (∀ part ∈ maximalRuns records, ∀ part' ∈ maximalRuns records',
          claimOf part = claimOf part' → claimOf part = Digest.zero) ∧ C = A ++ B := by
  have hruns : maximalRuns (records ++ records') = maximalRuns records ++ maximalRuns records' :=
    List.splitBy_append h
  rw [segment_of_decodes (List.rel_append ha hb), hruns, Assignment.ofRuns_runsFrom_append]
  simp only [segment_of_decodes ha, segment_of_decodes hb, ClaimsDistinct, List.pairwise_append,
    List.forall_mem_append]
  constructor
  · rintro ⟨⟨hstands, hstands'⟩, ⟨hdistinct, hdistinct', hapart⟩, rfl⟩
    exact ⟨_, _, ⟨hstands, hdistinct, rfl⟩, ⟨hstands', hdistinct', rfl⟩, hapart, rfl⟩
  · rintro ⟨A, B, ⟨hstands, hdistinct, rfl⟩, ⟨hstands', hdistinct', rfl⟩, hapart, rfl⟩
    exact ⟨⟨hstands, hstands'⟩, ⟨hdistinct, hdistinct', hapart⟩, rfl⟩

theorem ClaimsApart.group_eq_zero (h : ClaimsApart limits a b) (ha : a.Decodes limits records)
    (hb : b.Decodes limits records') {r s : Record} (hr : r ∈ records) (hs : s ∈ records')
    (heq : r.group = s.group) : r.group = Digest.zero := by
  obtain ⟨tx, htx, hrecord⟩ := ha.exists_of_mem hr
  obtain ⟨tx', htx', hrecord'⟩ := hb.exists_of_mem hs
  exact h tx htx tx' htx' r s hrecord hrecord' heq

/-- Two accepted batches that share no claim are accepted one behind the other. -/
theorem segment_append_of_segment (hA : a.segment limits maxGroup = .ok A)
    (hB : b.segment limits maxGroup = .ok B) (h : ClaimsApart limits a b) :
    (a ++ b).segment limits maxGroup = .ok (A ++ B) := by
  obtain ⟨records, ha⟩ := decodes_of_segment hA
  obtain ⟨records', hb⟩ := decodes_of_segment hB
  refine (segment_append_of_decodes ha hb fun r hr s hs => ?_).2 ⟨A, B, hA, hB, ?_, rfl⟩
  · rw [continues_eq_false_iff]
    intro hzero heq
    have hr := List.mem_of_mem_getLast? hr
    have hs := List.mem_of_mem_head? hs
    exact hzero (heq ▸ h.group_eq_zero ha hb hr hs heq)
  · intro part hpart part' hpart' heq
    -- each part makes the claim of its first record
    obtain ⟨hne, hclaim⟩ := claim_of_mem_maximalRuns hpart
    obtain ⟨hne', hclaim'⟩ := claim_of_mem_maximalRuns hpart'
    rw [← hclaim _ (List.head_mem hne), ← hclaim' _ (List.head_mem hne')] at heq
    rw [← hclaim _ (List.head_mem hne)]
    refine h.group_eq_zero ha hb ?_ ?_ heq
    · rw [← flatten_maximalRuns records]
      exact List.mem_flatten_of_mem hpart (List.head_mem hne)
    · rw [← flatten_maximalRuns records']
      exact List.mem_flatten_of_mem hpart' (List.head_mem hne')

/-- If no run of an accepted batch spans a position, the record there does not continue the one in
front of it. -/
theorem continues_eq_false_of_not_spans (hdec : a.Decodes limits records)
    (h : a.segment limits maxGroup = .ok C) {k : Nat} (hspan : ∀ run ∈ C.runs, ¬run.Spans (k + 1))
    {r s : Record} (hr : records[k]? = some r) (hs : records[k + 1]? = some s) :
    continues r s = false := by
  rw [← Bool.not_eq_true, continues_iff]
  rintro ⟨hzero, heq⟩
  obtain ⟨run, hrun, -, -, -, hcontains⟩ :=
    exists_run_of_claim hdec h (List.mem_of_getElem? hs) hzero
  have hfront := (hcontains k r hr).2 heq
  have hback := (hcontains (k + 1) s hs).2 rfl
  rw [Run.contains_iff] at hfront hback
  exact hspan run hrun ⟨Nat.lt_succ_of_le hfront.1, hback.2⟩

/-- An accepted batch may be cut apart where no run is cut. -/
theorem exists_segment_of_append (h : (a ++ b).segment limits maxGroup = .ok C)
    (hspan : ∀ run ∈ C.runs, ¬run.Spans a.length) :
    ∃ A B, a.segment limits maxGroup = .ok A ∧ b.segment limits maxGroup = .ok B ∧ C = A ++ B := by
  obtain ⟨records, hdec⟩ := decodes_of_segment h
  have ha := List.forall₂_take a.length hdec
  have hb := List.forall₂_drop a.length hdec
  rw [List.take_left] at ha
  rw [List.drop_left] at hb
  have hsplit : (a ++ b).segment limits maxGroup = .ok C ↔ _ := segment_append_of_decodes ha hb ?_
  · obtain ⟨A, B, hA, hB, -, hC⟩ := hsplit.1 h
    exact ⟨A, B, hA, hB, hC⟩
  intro r hr s hs
  have hlen : a.length ≤ records.length := by
    rw [← hdec.length_eq, List.length_append]
    exact Nat.le_add_right _ _
  rw [List.head?_drop] at hs
  cases hk : a.length with
  | zero =>
    rw [hk, List.take_zero] at hr
    cases hr
  | succ k =>
    rw [hk] at hr hs hspan hlen
    rw [List.getLast?_take, if_neg k.succ_ne_zero, Nat.add_sub_cancel,
      List.getElem?_eq_getElem hlen, Option.some_or] at hr
    exact continues_eq_false_of_not_spans hdec h hspan
      ((List.getElem?_eq_getElem hlen).trans hr) hs

/-- Cutting into runs commutes with putting batches one behind the other, as long as no run is cut.
Two accepted batches that share no group are accepted together, and what is given is the one
assignment and behind it the other.  If a batch is accepted and no run spans a position, the parts
in front of the position and behind it are accepted, each with what is said about it. -/
theorem segment_append (limits : Limits) (maxGroup : Nat) (a b : Batch) :
    (∀ A B, a.segment limits maxGroup = .ok A → b.segment limits maxGroup = .ok B →
      ClaimsApart limits a b →
        (a ++ b).segment limits maxGroup = .ok (A ++ B) ∧ A.indices.size = a.length) ∧
    ∀ C, (a ++ b).segment limits maxGroup = .ok C → (∀ run ∈ C.runs, ¬run.Spans a.length) →
      a.segment limits maxGroup = .ok (C.before a.length) ∧
        b.segment limits maxGroup = .ok (C.behind a.length) ∧
        C = C.before a.length ++ C.behind a.length := by
  constructor
  · intro A B hA hB h
    exact ⟨segment_append_of_segment hA hB h, (isWithin_of_segment hA).1⟩
  · intro C hC hspan
    obtain ⟨A, B, hA, hB, rfl⟩ := exists_segment_of_append hC hspan
    obtain ⟨hsize, hwithinA⟩ := isWithin_of_segment hA
    obtain ⟨-, hwithinB⟩ := isWithin_of_segment hB
    rw [← hsize, Assignment.before_append hwithinA hwithinB,
      Assignment.behind_append hwithinA hwithinB]
    exact ⟨hA, hB, rfl⟩

/-- One record and two records are stamped, put one behind the other and cut apart again. -/
theorem segment_append_oneField :
    let one := [Record.oneField]
    let two := [Record.oneField, Record.oneField]
    let a := stamped (Group.ofRecords one) one
    let b := stamped (Group.ofRecords two) two
    let both : Assignment := ⟨#[0, 1, 1],
      #[⟨0, 0, 1, Group.ofRecords one⟩, ⟨1, 1, 3, Group.ofRecords two⟩]⟩
    (a ++ b).segment {} 2 = .ok both ∧ a.segment {} 2 = .ok (both.before 1) ∧
      b.segment {} 2 = .ok (both.behind 1) := by
  intro one two a b both
  have hone : Group.ofRecords one ≠ Digest.zero := Group.ofRecords_oneField_ne.1
  obtain ⟨htwo, hne⟩ : Group.ofRecords two ≠ Digest.zero ∧
      Group.ofRecords one ≠ Group.ofRecords two := Group.ofRecords_oneField_twice_ne
  have hdec : Decodes {} [⟨[0x81, 0xa1, 0x61, 0x01]⟩] one :=
    decodes_oneField (by decide) (by decide)
  have hdec' : Decodes {} _ two := decodes_oneField_twice
  have hA : a.segment {} 2 = .ok _ := segment_stamped hdec (List.cons_ne_nil _ _) hone (by decide)
    (by simpa [one] using hasRoom_oneField _)
  have hB : b.segment {} 2 = .ok _ := segment_stamped hdec' (List.cons_ne_nil _ _) htwo (by decide)
    (by simpa [two] using hasRoom_oneField _)
  obtain ⟨happend, hcut⟩ := segment_append {} 2 a b
  have hapart : ClaimsApart {} a b := fun tx htx tx' htx' r r' hr hr' heq => by
    rw [hdec.group_eq_of_mem_stamped htx hr, hdec'.group_eq_of_mem_stamped htx' hr'] at heq
    exact absurd heq hne
  obtain ⟨hboth, -⟩ := happend _ _ hA hB hapart
  have hlayout : Assignment.ofRuns [⟨0, 0, 1, Group.ofRecords one⟩] ++
      Assignment.ofRuns [⟨0, 0, 2, Group.ofRecords two⟩] = both := by
    refine Assignment.ext_toList ?_ ?_
    · rw [Assignment.toList_indices_append, Assignment.toList_indices_ofRuns,
        Assignment.toList_indices_ofRuns]
      rfl
    · rw [Assignment.toList_runs_append, Assignment.toList_runs_ofRuns,
        Assignment.toList_runs_ofRuns]
      rfl
  replace hboth := hboth.trans (congrArg Except.ok hlayout)
  obtain ⟨hbefore, hbehind, -⟩ := hcut both hboth (by simp [both, Run.Spans, a, stamped, one])
  exact ⟨hboth, hbefore, hbehind⟩

end Batch

end AtomicGroups
