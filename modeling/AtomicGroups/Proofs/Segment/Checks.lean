import Mathlib
import AtomicGroups.Proofs.Segment.Shape
import AtomicGroups.Segment.Checked

/-!
# What the checks of a grouping say

Two checks go through the positions of a batch once and look at little more than a position and its
neighbour.  What they say of all positions together: indices without a gap are those that never
decrease and whose values are the numbers below some bound (`denseIndices_iff_values`), and a group
fills one stretch if whatever stands between two positions that claim it claims it too
(`contiguousGroups_iff_between`).
-/

namespace AtomicGroups

/-! ## The values of indices -/

section

variable {i j : Nat} {indices later : List Nat}

/-- In a list that does not decrease, the values are the numbers from the first one up to a bound
exactly if each is its neighbour's or one more. -/
theorem isChain_cons_iff_values : (i :: later).IsChain (fun i j => j = i ∨ j = i + 1) ↔
    (i :: later).Pairwise (· ≤ ·) ∧ ∃ k, ∀ n, n ∈ i :: later ↔ i ≤ n ∧ n < k := by
  induction later generalizing i with
  | nil =>
    refine iff_of_true (.singleton _) ⟨List.pairwise_singleton _ _, i + 1, fun n => ?_⟩
    rw [List.mem_singleton]
    omega
  | cons j later ih =>
    rw [List.isChain_cons_cons, ih, List.pairwise_cons (a := i)]
    constructor
    · rintro ⟨hstep, hsorted, k, hk⟩
      have hj := (hk j).1 List.mem_cons_self
      refine ⟨⟨fun n hn => ?_, hsorted⟩, k, fun n => ?_⟩
      · have hn := (hk n).1 hn
        omega
      · rw [List.mem_cons, hk]
        omega
    · rintro ⟨⟨hle, hsorted⟩, k, hk⟩
      have hfirst : ∀ n ∈ j :: later, j ≤ n := by
        rw [List.forall_mem_cons]
        exact ⟨le_rfl, (List.pairwise_cons.1 hsorted).1⟩
      have hij := hle j List.mem_cons_self
      have hj := (hk j).1 (List.mem_cons_of_mem i List.mem_cons_self)
      refine ⟨?_, hsorted, k, fun n => ⟨fun hn => ?_, fun hn => ?_⟩⟩
      · -- otherwise the number behind `i` is missing
        by_contra hstep
        have hnext := (hk (i + 1)).2 (by omega)
        rcases List.mem_cons.1 hnext with heq | hmem
        · omega
        · have := hfirst _ hmem
          omega
      · exact ⟨hfirst n hn, ((hk n).1 (List.mem_cons_of_mem i hn)).2⟩
      · rcases List.mem_cons.1 ((hk n).2 (by omega)) with rfl | hmem
        · rw [show n = j by omega]
          exact List.mem_cons_self
        · exact hmem

/-- Indices have no gap exactly if they do not decrease and their values are the numbers below a
bound. -/
theorem denseIndices_iff_values : denseIndices indices = true ↔
    indices.Pairwise (· ≤ ·) ∧ ∃ k, ∀ n, n ∈ indices ↔ n < k := by
  rw [denseIndices_iff]
  cases indices with
  | nil => exact iff_of_true (by simp) ⟨.nil, 0, by simp⟩
  | cons i later =>
    rw [isChain_cons_iff_values]
    constructor
    · rintro ⟨hzero, hsorted, k, hk⟩
      obtain rfl := hzero i rfl
      exact ⟨hsorted, k, by simpa using hk⟩
    · rintro ⟨hsorted, k, hk⟩
      have hpos := (hk i).1 List.mem_cons_self
      -- zero is among the values, and none lies below the first one
      have hzero : i = 0 := by
        rcases List.mem_cons.1 ((hk 0).2 (by omega)) with heq | hmem
        · exact heq.symm
        · exact Nat.le_zero.1 ((List.pairwise_cons.1 hsorted).1 0 hmem)
      subst hzero
      exact ⟨by simp, hsorted, k, by simpa using hk⟩

end

/-! ## Indices as words -/

section

variable {i j : UInt64} {later : List UInt64}

theorem mayFollow?_of_lt (h : i.toNat + 1 < UInt64.size) :
    mayFollow? i j = some (j.toNat = i.toNat || j.toNat = i.toNat + 1) := by
  have hnext : (i + 1).toNat = i.toNat + 1 := by
    rw [UInt64.toNat_add, UInt64.toNat_one, Nat.mod_eq_of_lt h]
  unfold mayFollow? nextWord?
  rw [if_pos h]
  simp only [← UInt64.toNat_inj, hnext, Option.map_some]
  split_ifs with heq <;> simp [heq]

/-- Words behind a small enough index are checked without a fault: up to the first that may not
stand where it does, each is at most one more than its neighbour. -/
theorem allFollow?_eq (h : i.toNat + later.length < UInt64.size) : allFollow? i later =
    some (((i.toNat :: later.map UInt64.toNat).zip (later.map UInt64.toNat)).all
      fun p => p.2 = p.1 || p.2 = p.1 + 1) := by
  induction later generalizing i with
  | nil => rfl
  | cons j later ih =>
    rw [List.length_cons] at h
    rw [allFollow?, mayFollow?_of_lt (by omega), List.map_cons, List.zip_cons_cons, List.all_cons]
    cases hstep : decide (j.toNat = i.toNat) || decide (j.toNat = i.toNat + 1) with
    | false => rfl
    | true =>
      have hle : j.toNat ≤ i.toNat + 1 := by
        simp only [Bool.or_eq_true, decide_eq_true_eq] at hstep
        omega
      rw [Bool.true_and]
      exact ih (by omega)

/-- There is no fault in a list with no more indices than there are words. -/
theorem denseWords?_eq {indices : List UInt64} (h : indices.length ≤ UInt64.size) :
    denseWords? indices = some (denseIndices (indices.map UInt64.toNat)) := by
  cases indices with
  | nil => rfl
  | cons i later =>
    rw [List.length_cons] at h
    by_cases hi : i = 0
    · subst hi
      have hsmall : (0 : UInt64).toNat + later.length < UInt64.size := by
        rw [UInt64.toNat_zero]
        omega
      rw [denseWords?, if_pos rfl, allFollow?_eq hsmall]
      rfl
    · have hne : i.toNat ≠ 0 := fun hzero => hi (UInt64.toNat_inj.1 hzero)
      rw [denseWords?, if_neg hi]
      simp [denseIndices, hne]

end

/-- Indices have no gap exactly if they do not decrease and their values are the numbers below a
bound.  The check on words finds out without a fault, however great the words are, if there are
fewer than `2 ^ 63` of them. -/
theorem denseIndices_initialSegment (indices : List UInt64) (h : indices.length < 2 ^ 63) :
    denseWords? indices = some (denseIndices (indices.map UInt64.toNat)) ∧
    (denseIndices (indices.map UInt64.toNat) = true ↔ indices.Pairwise (· ≤ ·) ∧
      ∃ k, ∀ n, n ∈ indices.map UInt64.toNat ↔ n < k) := by
  constructor
  · exact denseWords?_eq (h.le.trans (by decide))
  · rw [denseIndices_iff_values, List.pairwise_map]
    simp only [UInt64.le_iff_toNat_le]

/-- The greatest word is refused for the gap in front of it, so nothing is asked about the one
behind it. -/
theorem denseIndices_initialSegment_greatest :
    let indices : List UInt64 := [0, 0, 1, 18446744073709551615, 0]
    indices.length < 2 ^ 63 ∧ denseWords? indices = some false ∧
      ¬ (indices.Pairwise (· ≤ ·) ∧ ∃ k, ∀ n, n ∈ indices.map UInt64.toNat ↔ n < k) := by
  intro indices
  have hlength : indices.length < 2 ^ 63 := by decide
  obtain ⟨hwords, hvalues⟩ := denseIndices_initialSegment indices hlength
  have hgap : denseIndices (indices.map UInt64.toNat) = false := by decide
  rw [hgap] at hwords hvalues
  exact ⟨hlength, hwords, fun h => Bool.false_ne_true (hvalues.2 h)⟩

/-! ## Stretches of groups -/

theorem Digest.isZero_eq_false_iff {d : Digest} : d.isZero = false ↔ d ≠ zero := by
  rw [← Bool.not_eq_true, isZero_iff]

/-- Of three positions in order: if the outer ones claim one group, the one between them claims it
too. -/
def Encloses (outer between outer' : Digest) : Prop :=
  outer = outer' → outer ≠ Digest.zero → between = outer

section

variable {closed groups : List Digest} {previous : Option Digest} {g p : Digest}

/-- A second position in a row with the group of the first adds nothing. -/
theorem triplewise_encloses_cons_self :
    (g :: g :: groups).Triplewise Encloses ↔ (g :: groups).Triplewise Encloses := by
  have hself : ∀ k ∈ groups, Encloses g g k := fun _ _ _ _ => rfl
  rw [List.triplewise_cons, List.pairwise_cons, List.triplewise_cons]
  exact ⟨And.right, fun h => ⟨⟨hself, h.1⟩, h⟩⟩

/-- Behind the end of its stretch, a group must not be claimed again. -/
theorem pairwise_encloses_cons_iff (hne : p = g → g = Digest.zero) :
    (g :: groups).Pairwise (Encloses p) ↔ (p ≠ Digest.zero → p ∉ groups) := by
  rw [List.pairwise_cons]
  constructor
  · rintro ⟨h, -⟩ hzero hmem
    have heq : g = p := h p hmem rfl hzero
    exact hzero (heq ▸ hne heq.symm)
  · intro h
    have hnot : ∀ g, ∀ k ∈ groups, Encloses p g k := by
      rintro g k hk rfl hzero
      exact absurd hk (h hzero)
    exact ⟨hnot g, List.pairwise_of_forall_mem_list fun g _ k hk => hnot g k hk⟩

theorem triplewise_encloses_append_iff (hne : previous = some g → g = Digest.zero) :
    (previous.toList ++ g :: groups).Triplewise Encloses ↔
      (∀ p ∈ previous, p ≠ Digest.zero → p ∉ groups) ∧ (g :: groups).Triplewise Encloses := by
  cases previous with
  | none => simp
  | some p =>
    rw [Option.toList_some, List.singleton_append, List.triplewise_cons,
      pairwise_encloses_cons_iff fun heq => hne (congrArg some heq)]
    simp

theorem mem_toList_filter_iff :
    g ∈ (previous.filter fun p => !p.isZero).toList ↔ g ∈ previous ∧ g ≠ Digest.zero := by
  rw [Option.mem_toList, Option.filter_eq_some_iff, Bool.not_eq_true', Digest.isZero_eq_false_iff]
  rfl

/-- A position with the group in front goes on with its stretch. -/
theorem contiguousFrom_cons_self (hzero : g ≠ Digest.zero) :
    contiguousFrom closed (some g) (g :: groups) = contiguousFrom closed (some g) groups := by
  rw [contiguousFrom, if_pos]
  simpa [Digest.isZero_eq_false_iff] using hzero

/-- Any other position ends the stretch in front, and its own group must not have ended before. -/
theorem contiguousFrom_cons_iff (hne : previous = some g → g = Digest.zero) :
    contiguousFrom closed previous (g :: groups) = true ↔
      (g ∈ closed → g = Digest.zero) ∧
      contiguousFrom ((previous.filter fun p => !p.isZero).toList ++ closed) (some g) groups =
        true := by
  have hfirst : ¬ (decide (previous = some g) && !g.isZero) = true := by
    simpa [Digest.isZero_eq_false_iff] using hne
  have hreused : (!g.isZero &&
      ((previous.filter fun p => !p.isZero).toList ++ closed).contains g) = true ↔
        ¬ (g ∈ closed → g = Digest.zero) := by
    rw [Bool.and_eq_true, Bool.not_eq_true', Digest.isZero_eq_false_iff, List.contains_iff_mem,
      List.mem_append, mem_toList_filter_iff, Option.mem_def]
    tauto
  rw [contiguousFrom, if_neg hfirst]
  dsimp only
  split_ifs with hg
  · exact iff_of_false id fun hok => hreused.1 hg hok.1
  · exact (and_iff_right (not_not.1 (mt hreused.2 hg))).symm

/-- What has ended once `previous` is not continued: the stretches that had, and its own. -/
theorem forall_ended_iff (hclosed : g ∈ closed → g = Digest.zero) :
    (∀ p ∈ (previous.filter fun p => !p.isZero).toList ++ closed,
      p ≠ Digest.zero → p ∉ groups) ↔
    (∀ p ∈ closed, p ≠ Digest.zero → p ∉ g :: groups) ∧
      ∀ p ∈ previous, p ≠ Digest.zero → p ∉ groups := by
  constructor
  · intro h
    refine ⟨fun p hp hzero => ?_, fun p hp hzero => ?_⟩
    · rw [List.mem_cons, not_or]
      refine ⟨?_, h p (List.mem_append_right _ hp) hzero⟩
      rintro rfl
      exact hzero (hclosed hp)
    · exact h p (List.mem_append_left _ (mem_toList_filter_iff.2 ⟨hp, hzero⟩)) hzero
  · rintro ⟨hended, hprevious⟩ p hp hzero
    rcases List.mem_append.1 hp with hp | hp
    · exact hprevious p (mem_toList_filter_iff.1 hp).1 hzero
    · exact fun hmem => hended p hp hzero (List.mem_cons_of_mem g hmem)

/-- The check of the groups behind the stretch of `previous`, where stretches of the groups `closed`
have ended: none of these is claimed again, and no other group behind the end of its stretch.  The
induction goes through the positions; the group in front of each has not ended yet. -/
theorem contiguousFrom_iff (hopen : ∀ p ∈ previous, p ≠ Digest.zero → p ∉ closed) :
    contiguousFrom closed previous groups = true ↔
      (∀ p ∈ closed, p ≠ Digest.zero → p ∉ groups) ∧
      (previous.toList ++ groups).Triplewise Encloses := by
  induction groups generalizing closed previous with
  | nil => cases previous <;> simp [contiguousFrom]
  | cons g groups ih =>
    by_cases hne : previous = some g → g = Digest.zero
    · rw [contiguousFrom_cons_iff hne]
      by_cases hclosed : g ∈ closed → g = Digest.zero
      · have hopen' : ∀ p ∈ some g, p ≠ Digest.zero →
            p ∉ (previous.filter fun p => !p.isZero).toList ++ closed := by
          rintro p ⟨⟩ hzero hmem
          rw [List.mem_append, mem_toList_filter_iff] at hmem
          exact hzero (hmem.elim (fun h => hne h.1) hclosed)
        rw [and_iff_right hclosed, ih hopen', triplewise_encloses_append_iff hne,
          forall_ended_iff hclosed, and_assoc]
        rfl
      · obtain ⟨hmem, hzero⟩ := Classical.not_imp.1 hclosed
        exact iff_of_false (fun h => hclosed h.1) fun h => h.1 g hmem hzero List.mem_cons_self
    · obtain ⟨rfl, hzero⟩ := Classical.not_imp.1 hne
      have hclosed : g ∉ closed := hopen g rfl hzero
      rw [contiguousFrom_cons_self hzero, ih hopen]
      refine and_congr (forall₂_congr fun p hp => ?_) triplewise_encloses_cons_self.symm
      rw [List.mem_cons, not_or]
      exact imp_congr_right fun _ => (and_iff_right fun heq : p = g => hclosed (heq ▸ hp)).symm

/-- Each group fills one stretch exactly if whatever stands between two positions that claim a group
claims it too.  Positions without a group may stand anywhere. -/
theorem contiguousGroups_iff_between (groups : List Digest) : contiguousGroups groups = true ↔
    ∀ i j k (hij : i < j) (hjk : j < k) (hk : k < groups.length),
      groups[i] = groups[k] → groups[i] ≠ Digest.zero → groups[j] = groups[i] := by
  unfold contiguousGroups
  rw [contiguousFrom_iff (by simp), Option.toList_none, List.nil_append,
    List.triplewise_iff_getElem]
  simp [Encloses]

end

end AtomicGroups
