import Mathlib
import AtomicGroups.Proofs.Wire.Canonical

/-!
# Shortest headers

The format has a header of one byte for small counts and headers of several widths for all counts
that fit them (`HasForms`).  The canonical header of a map or an array is the only shortest one of
its count (`isShortest_mapHeader_iff`, `isShortest_arrayHeader_iff`), and so are the canonical forms
of a key and of a binary (`isShortest_string_iff`, `isShortest_binary_iff`).
-/

namespace AtomicGroups.Wire

theorem IsShortest.congr {P Q : Bytes → Prop} {b : Bytes} (h : ∀ b, P b ↔ Q b) :
    IsShortest P b ↔ IsShortest Q b := by
  unfold IsShortest
  simp only [h]

/-- A form that is shorter than all others is the only shortest one. -/
theorem isShortest_iff_eq {P : Bytes → Prop} {b c : Bytes} (hc : P c)
    (hlt : ∀ b', P b' → b' ≠ c → c.length < b'.length) : IsShortest P b ↔ b = c := by
  constructor
  · rintro ⟨hb, hle⟩
    by_contra hne
    exact absurd (hle c hc) (Nat.not_le.2 (hlt b hb hne))
  · rintro rfl
    refine ⟨hc, fun b' hb' => ?_⟩
    by_cases heq : b' = b
    · rw [heq]
    · exact (hlt b' hb' heq).le

/-! ## The forms of a header -/

/-- How the headers of a format are made: a count below `bound` may stand in the type byte, from
`base` on, and each row of `wides` is a type byte and the width of the count behind it. -/
def HasForms (format : Count → Format) (base : UInt8) (bound : Nat) (wides : List (UInt8 × Nat)) :
    Prop :=
  ∀ tag k, TypeByte tag (format k) ↔ (∃ n < bound, tag = base + UInt8.ofNat n ∧ k = .inTag n) ∨
    ∃ wide ∈ wides, tag = wide.1 ∧ k = .wide wide.2

theorem hasForms_map : HasForms .map 0x80 16 [(0xde, 2), (0xdf, 4)] := by
  intro tag k
  simp [TypeByte, typeBytes, rows, eq_comm]

theorem hasForms_array : HasForms .array 0x90 16 [(0xdc, 2), (0xdd, 4)] := by
  intro tag k
  simp [TypeByte, typeBytes, rows, eq_comm]

theorem hasForms_string : HasForms .string 0xa0 32 [(0xd9, 1), (0xda, 2), (0xdb, 4)] := by
  intro tag k
  simp [TypeByte, typeBytes, rows, eq_comm]

/-- The count of a binary is never in its type byte. -/
theorem hasForms_binary : HasForms .binary 0xc4 0 [(0xc4, 1), (0xc5, 2), (0xc6, 4)] := by
  intro tag k
  simp [TypeByte, typeBytes, rows]

theorem Count.spells_wide_iff {width n : Nat} {b : Bytes} :
    (Count.wide width).Spells b n ↔ b = Bytes.ofNat width n ∧ n < 256 ^ width := by
  constructor
  · rintro ⟨rfl, rfl⟩
    exact ⟨(Bytes.ofNat_toNat b).symm, Bytes.toNat_lt b⟩
  · rintro ⟨rfl, hn⟩
    exact ⟨Bytes.length_ofNat .., (Bytes.toNat_ofNat_of_lt hn).symm⟩

theorem isHeader_iff {format : Count → Format} {b : Bytes} {n : Nat} : IsHeader format b n ↔
    ∃ tag k count, b = tag :: count ∧ TypeByte tag (format k) ∧ k.Spells count n := by
  constructor
  · rintro ⟨ht, hk⟩
    exact ⟨_, _, _, rfl, ht, hk⟩
  · rintro ⟨tag, k, count, rfl, ht, hk⟩
    exact .mk ht hk

/-- A header in terms of what is computed from its type byte. -/
theorem isHeader_iff_ofByte {format : Count → Format} {b : Bytes} {n : Nat}
    (h : ∀ k, format k ≠ .reserved) : IsHeader format b n ↔
      ∃ tag k count, b = tag :: count ∧ Format.ofByte tag = format k ∧ k.Spells count n := by
  rw [isHeader_iff]
  simp only [typeByte_iff, h, ne_eq, not_false_eq_true, and_true]

section

variable {format : Count → Format} {base : UInt8} {bound n : Nat} {wides : List (UInt8 × Nat)}
  {b : Bytes}

theorem HasForms.isHeader_iff (h : HasForms format base bound wides) : IsHeader format b n ↔
    (b = [base + UInt8.ofNat n] ∧ n < bound) ∨
      ∃ wide ∈ wides, b = wide.1 :: Bytes.ofNat wide.2 n ∧ n < 256 ^ wide.2 := by
  rw [Wire.isHeader_iff]
  constructor
  · rintro ⟨tag, k, count, rfl, htag, hk⟩
    rcases (h tag k).1 htag with ⟨m, hm, rfl, rfl⟩ | ⟨wide, hwide, rfl, rfl⟩
    · obtain ⟨rfl, rfl⟩ := hk
      exact .inl ⟨rfl, hm⟩
    · obtain ⟨rfl, hn⟩ := Count.spells_wide_iff.1 hk
      exact .inr ⟨wide, hwide, rfl, hn⟩
  · rintro (⟨rfl, hn⟩ | ⟨wide, hwide, rfl, hn⟩)
    · exact ⟨_, .inTag n, [], rfl, (h _ _).2 (.inl ⟨n, hn, rfl, rfl⟩), rfl, rfl⟩
    · exact ⟨_, .wide wide.2, _, rfl, (h _ _).2 (.inr ⟨wide, hwide, rfl, rfl⟩),
        Count.spells_wide_iff.2 ⟨rfl, hn⟩⟩

/-- A count that goes into the type byte has no other header as short. -/
theorem HasForms.isShortest_inTag_iff (h : HasForms format base bound wides) (hn : n < bound)
    (hwides : ∀ wide ∈ wides, 0 < wide.2) :
    IsShortest (IsHeader format · n) b ↔ b = [base + UInt8.ofNat n] := by
  refine isShortest_iff_eq (h.isHeader_iff.2 (.inl ⟨rfl, hn⟩)) fun b' hb' hne => ?_
  rcases h.isHeader_iff.1 hb' with ⟨rfl, -⟩ | ⟨wide, hwide, rfl, -⟩
  · exact absurd rfl hne
  · rw [List.length_cons, List.length_cons, Bytes.length_ofNat]
    exact Nat.succ_lt_succ (hwides wide hwide)

/-- Otherwise the least width that the count fits gives the shortest header. -/
theorem HasForms.isShortest_wide_iff (h : HasForms format base bound wides) (hn : bound ≤ n)
    (wide : UInt8 × Nat) (hwide : wide ∈ wides) (hfits : n < 256 ^ wide.2)
    (hleast : ∀ wide' ∈ wides, wide' ≠ wide → n < 256 ^ wide'.2 → wide.2 < wide'.2) :
    IsShortest (IsHeader format · n) b ↔ b = wide.1 :: Bytes.ofNat wide.2 n := by
  refine isShortest_iff_eq (h.isHeader_iff.2 (.inr ⟨wide, hwide, rfl, hfits⟩)) fun b' hb' hne => ?_
  rcases h.isHeader_iff.1 hb' with ⟨-, hlt⟩ | ⟨wide', hwide', rfl, hfits'⟩
  · exact absurd hlt (Nat.not_lt.2 hn)
  · rw [List.length_cons, List.length_cons, Bytes.length_ofNat, Bytes.length_ofNat]
    refine Nat.succ_lt_succ (hleast wide' hwide' ?_ hfits')
    rintro rfl
    exact hne rfl

end

/-! ## Canonical headers -/

section

variable {format : Count → Format} {base wide : UInt8} {bound n : Nat} {b : Bytes} {s : String}

theorem HasForms.isShortest_containerHeader_iff
    (h : HasForms format base 16 [(wide, 2), (wide + 1, 4)]) (hn : n < 2 ^ 32) :
    IsShortest (IsHeader format · n) b ↔ b = Canonical.containerHeader base wide n := by
  unfold Canonical.containerHeader
  split_ifs with h₁ h₂
  · exact h.isShortest_inTag_iff h₁ (by simp)
  · exact h.isShortest_wide_iff (by omega) (wide, 2) (by simp) h₂ (by simp)
  · exact h.isShortest_wide_iff (by omega) (wide + 1, 4) (by simp) hn (by simp; omega)

theorem HasForms.isShortest_blobHeader_iff
    (h : HasForms format base bound [(wide, 1), (wide + 1, 2), (wide + 2, 4)]) (hbound : bound ≤ n)
    (hn : n < 2 ^ 32) : IsShortest (IsHeader format · n) b ↔ b = Canonical.blobHeader wide n := by
  unfold Canonical.blobHeader
  split_ifs with h₁ h₂
  · exact h.isShortest_wide_iff hbound (wide, 1) (by simp) h₁ (by simp)
  · exact h.isShortest_wide_iff hbound (wide + 1, 2) (by simp) h₂ (by simp; omega)
  · exact h.isShortest_wide_iff hbound (wide + 2, 4) (by simp) hn (by simp; omega)

theorem isShortest_mapHeader_iff (hn : n < 2 ^ 32) :
    IsShortest (IsHeader .map · n) b ↔ b = Canonical.mapHeader n :=
  hasForms_map.isShortest_containerHeader_iff hn

theorem isShortest_arrayHeader_iff (hn : n < 2 ^ 32) :
    IsShortest (IsHeader .array · n) b ↔ b = Canonical.arrayHeader n :=
  hasForms_array.isShortest_containerHeader_iff hn

theorem isShortest_stringHeader_iff (hn : n < 2 ^ 32) :
    IsShortest (IsHeader .string · n) b ↔ b = Canonical.stringHeader n := by
  unfold Canonical.stringHeader
  split_ifs with hshort
  · exact hasForms_string.isShortest_inTag_iff hshort (by decide)
  · exact hasForms_string.isShortest_blobHeader_iff (Nat.le_of_not_lt hshort) hn

theorem isShortest_binaryHeader_iff (hn : n < 2 ^ 32) :
    IsShortest (IsHeader .binary · n) b ↔ b = Canonical.blobHeader 0xc4 n :=
  hasForms_binary.isShortest_blobHeader_iff (Nat.zero_le n) hn

/-! ## Texts and binaries -/

/-- What comes behind the header does not matter for which form is the shortest. -/
theorem isShortest_append_iff {P Q : Bytes → Prop} {header content : Bytes}
    (hP : ∀ b, P b ↔ ∃ header, Q header ∧ b = header ++ content)
    (hQ : ∀ b, IsShortest Q b ↔ b = header) : IsShortest P b ↔ b = header ++ content := by
  obtain ⟨hheader, hle⟩ := (hQ header).2 rfl
  constructor
  · rintro ⟨hb, hshortest⟩
    obtain ⟨header', hheader', rfl⟩ := (hP b).1 hb
    have hlength := hshortest _ ((hP _).2 ⟨header, hheader, rfl⟩)
    rw [List.length_append, List.length_append] at hlength
    rw [(hQ header').1 ⟨hheader', fun b' hb' => ?_⟩]
    exact (Nat.le_of_add_le_add_right hlength).trans (hle b' hb')
  · rintro rfl
    refine ⟨(hP _).2 ⟨header, hheader, rfl⟩, fun b' hb' => ?_⟩
    obtain ⟨header', hheader', rfl⟩ := (hP b').1 hb'
    rw [List.length_append, List.length_append]
    exact Nat.add_le_add_right (hle header' hheader') _

/-- A key is the header of its text and the text. -/
theorem isKey_iff : IsKey b s ↔
    ∃ header, IsHeader .string header (Bytes.ofString s).length ∧ b = header ++ Bytes.ofString s := by
  constructor
  · rintro ⟨ht, hk⟩
    exact ⟨_, .mk ht hk, rfl⟩
  · rintro ⟨-, ⟨ht, hk⟩, rfl⟩
    exact .mk ht hk

/-- A binary is the header of its payload and the payload. -/
theorem isBinary_iff {payload : Bytes} : IsBinary payload b ↔
    ∃ header, IsHeader .binary header payload.length ∧ b = header ++ payload := by
  constructor
  · rintro ⟨ht, hk⟩
    exact ⟨_, .mk ht hk, rfl⟩
  · rintro ⟨-, ⟨ht, hk⟩, rfl⟩
    exact .mk ht hk

theorem isShortest_string_iff (hlen : (Bytes.ofString s).length < 2 ^ 32) :
    IsShortest (IsKey · s) b ↔ b = Canonical.string s :=
  isShortest_append_iff (fun _ => isKey_iff) fun _ => isShortest_stringHeader_iff hlen

theorem isShortest_binary_iff {payload : Bytes} (hlen : payload.length < 2 ^ 32) :
    IsShortest (IsBinary payload) b ↔ b = Canonical.binary payload :=
  isShortest_append_iff (fun _ => isBinary_iff) fun _ => isShortest_binaryHeader_iff hlen

end

end AtomicGroups.Wire
