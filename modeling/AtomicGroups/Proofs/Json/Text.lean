import Mathlib
import AtomicGroups.Json.Value

/-!
# Texts in UTF-16

A character has one unit, or two that form a pair (`Text.charUnits_cases`).  So the well-formed
texts are those of strings (`Text.isWellFormed_iff`), and different strings have different texts
(`Text.ofString_injective`).
-/

namespace AtomicGroups.Json.Text

variable {c c' : Char} {u v : UInt16} {rest rest' units : List UInt16}

theorem isHigh_iff : isHigh u = true ↔ 0xd800 ≤ u.toNat ∧ u.toNat < 0xdc00 := by
  simp [isHigh, UInt16.le_iff_toNat_le, UInt16.lt_iff_toNat_lt]

theorem isLow_iff : isLow u = true ↔ 0xdc00 ≤ u.toNat ∧ u.toNat < 0xe000 := by
  simp [isLow, UInt16.le_iff_toNat_le, UInt16.lt_iff_toNat_lt]

/-- The number of the character that a pair of units stands for. -/
def ofPair (u v : UInt16) : Nat := 0x10000 + ((u.toNat - 0xd800) * 0x400 + (v.toNat - 0xdc00))

theorem toNat_ofNat_of_lt {n : Nat} (h : n < 0x10000) : (UInt16.ofNat n).toNat = n := by
  rw [UInt16.toNat_ofNat']
  exact Nat.mod_eq_of_lt h

theorem isHigh_ofNat {n : Nat} (h : n < 0x400) : isHigh (UInt16.ofNat (0xd800 + n)) = true := by
  rw [isHigh_iff, toNat_ofNat_of_lt (by omega)]
  omega

theorem isLow_ofNat {n : Nat} (h : n < 0x400) : isLow (UInt16.ofNat (0xdc00 + n)) = true := by
  rw [isLow_iff, toNat_ofNat_of_lt (by omega)]
  omega

theorem ofPair_ofNat {m n : Nat} (hm : m < 0x400) (hn : n < 0x400) :
    ofPair (UInt16.ofNat (0xd800 + m)) (UInt16.ofNat (0xdc00 + n)) =
      0x10000 + (m * 0x400 + n) := by
  unfold ofPair
  rw [toNat_ofNat_of_lt (by omega), toNat_ofNat_of_lt (by omega), Nat.add_sub_cancel_left,
    Nat.add_sub_cancel_left]

/-- A character is one unit that belongs to no pair, or a pair. -/
theorem charUnits_cases (c : Char) :
    (∃ u, charUnits c = [u] ∧ c.toNat = u.toNat ∧ isHigh u = false ∧ isLow u = false) ∨
      ∃ u v, charUnits c = [u, v] ∧ c.toNat = ofPair u v ∧ isHigh u = true ∧ isLow v = true := by
  have hvalid := c.valid
  simp only [UInt32.isValidChar, Nat.isValidChar, Char.toNat_val] at hvalid
  unfold charUnits
  by_cases hc : c.toNat < 0x10000
  · refine .inl ⟨UInt16.ofNat c.toNat, by rw [if_pos hc], ?_⟩
    rw [← Bool.not_eq_true, isHigh_iff, ← Bool.not_eq_true, isLow_iff, UInt16.toNat_ofNat']
    omega
  · have hfirst : (c.toNat - 0x10000) / 0x400 < 0x400 := by omega
    have hsecond : (c.toNat - 0x10000) % 0x400 < 0x400 := Nat.mod_lt _ (by decide)
    refine .inr ⟨_, _, by rw [if_neg hc], ?_, isHigh_ofNat hfirst, isLow_ofNat hsecond⟩
    rw [ofPair_ofNat hfirst hsecond]
    omega

theorem paired_charUnits_append (c : Char) (rest : List UInt16) :
    paired (charUnits c ++ rest) = paired rest := by
  rcases charUnits_cases c with ⟨u, hunits, -, hhigh, hlow⟩ | ⟨u, v, hunits, -, hhigh, hlow⟩
  · rw [hunits]
    cases rest <;> simp [paired, hhigh, hlow]
  · simp [hunits, paired, hhigh, hlow]

theorem isWellFormed_ofString (s : String) : (ofString s).isWellFormed = true := by
  unfold isWellFormed ofString
  induction s.toList with
  | nil => rfl
  | cons c cs ih => rwa [List.flatMap_cons, paired_charUnits_append]

/-- The first character of a text is determined by its units. -/
theorem charUnits_append_inj (h : charUnits c ++ rest = charUnits c' ++ rest') :
    c = c' ∧ rest = rest' := by
  rcases charUnits_cases c with ⟨u, heq, hc, hhigh, -⟩ | ⟨u, v, heq, hc, hhigh, -⟩ <;>
    rcases charUnits_cases c' with ⟨u', heq', hc', hhigh', -⟩ | ⟨u', v', heq', hc', hhigh', -⟩ <;>
    rw [heq, heq'] at h
  · injection h with hu hrest
    subst hu
    exact ⟨Char.toNat_inj.1 (hc.trans hc'.symm), hrest⟩
  · injection h with hu
    rw [hu, hhigh'] at hhigh
    cases hhigh
  · injection h with hu
    rw [hu, hhigh'] at hhigh
    cases hhigh
  · injection h with hu h
    injection h with hv hrest
    subst hu hv
    exact ⟨Char.toNat_inj.1 (hc.trans hc'.symm), hrest⟩

theorem flatMap_charUnits_injective {cs ds : List Char}
    (h : cs.flatMap charUnits = ds.flatMap charUnits) : cs = ds := by
  have hne (c : Char) (rest : List UInt16) : charUnits c ++ rest ≠ [] := by
    rcases charUnits_cases c with ⟨u, hunits, -⟩ | ⟨u, v, hunits, -⟩ <;> simp [hunits]
  induction cs generalizing ds with
  | nil =>
    cases ds with
    | nil => rfl
    | cons d ds => exact absurd h.symm (hne d _)
  | cons c cs ih =>
    cases ds with
    | nil => exact absurd h (hne c _)
    | cons d ds =>
      obtain ⟨rfl, hrest⟩ := charUnits_append_inj h
      rw [ih hrest]

theorem ofString_injective : Function.Injective ofString := by
  intro s t h
  exact String.toList_inj.1 (flatMap_charUnits_injective (congrArg units h))

theorem exists_charUnits_eq (hhigh : isHigh u = false) (hlow : isLow u = false) :
    ∃ c, charUnits c = [u] := by
  rw [← Bool.not_eq_true, isHigh_iff] at hhigh
  rw [← Bool.not_eq_true, isLow_iff] at hlow
  have hu := u.toNat_lt
  have hvalid : u.toNat.isValidChar := by
    unfold Nat.isValidChar
    omega
  have hc : (Char.ofNat u.toNat).toNat = u.toNat := by rw [Char.toNat_ofNat, if_pos hvalid]
  refine ⟨Char.ofNat u.toNat, ?_⟩
  unfold charUnits
  rw [hc, if_pos (by omega), UInt16.ofNat_toNat]

theorem exists_charUnits_eq_pair (hhigh : isHigh u = true) (hlow : isLow v = true) :
    ∃ c, charUnits c = [u, v] := by
  rw [isHigh_iff] at hhigh
  rw [isLow_iff] at hlow
  have hvalid : (ofPair u v).isValidChar := by
    unfold Nat.isValidChar ofPair
    omega
  have hc : (Char.ofNat (ofPair u v)).toNat = ofPair u v := by rw [Char.toNat_ofNat, if_pos hvalid]
  have hfirst : 0xd800 + (ofPair u v - 0x10000) / 0x400 = u.toNat := by
    unfold ofPair
    omega
  have hsecond : 0xdc00 + (ofPair u v - 0x10000) % 0x400 = v.toNat := by
    unfold ofPair
    omega
  refine ⟨Char.ofNat (ofPair u v), ?_⟩
  unfold charUnits
  rw [hc, if_neg (by unfold ofPair; omega)]
  dsimp only
  rw [hfirst, hsecond, UInt16.ofNat_toNat, UInt16.ofNat_toNat]

/-- Units of which each that belongs to a pair stands in one are those of characters. -/
theorem exists_of_paired (h : paired units = true) :
    ∃ cs : List Char, cs.flatMap charUnits = units := by
  fun_induction paired units with
  | case1 => exact ⟨[], rfl⟩
  | case2 u =>
    simp only [Bool.and_eq_true, Bool.not_eq_true'] at h
    obtain ⟨c, hc⟩ := exists_charUnits_eq h.1 h.2
    exact ⟨[c], by simp [hc]⟩
  | case3 u v rest hhigh ih =>
    rw [Bool.and_eq_true] at h
    obtain ⟨cs, rfl⟩ := ih h.2
    obtain ⟨c, hc⟩ := exists_charUnits_eq_pair hhigh h.1
    exact ⟨c :: cs, by simp [hc]⟩
  | case4 u v rest hhigh ih =>
    rw [Bool.and_eq_true, Bool.not_eq_true'] at h
    obtain ⟨cs, hcs⟩ := ih h.2
    obtain ⟨c, hc⟩ := exists_charUnits_eq (Bool.eq_false_of_not_eq_true hhigh) h.1
    exact ⟨c :: cs, by simp [hc, hcs]⟩

/-- The well-formed texts are those of strings. -/
theorem isWellFormed_iff {t : Text} : t.isWellFormed = true ↔ ∃ s, t = ofString s := by
  constructor
  · intro h
    obtain ⟨cs, hcs⟩ := exists_of_paired h
    refine ⟨String.ofList cs, ?_⟩
    unfold ofString
    rw [String.toList_ofList, hcs]
  · rintro ⟨s, rfl⟩
    exact isWellFormed_ofString s

end AtomicGroups.Json.Text
