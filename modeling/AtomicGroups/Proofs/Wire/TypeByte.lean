import Mathlib
import AtomicGroups.Bytes.Lemmas
import AtomicGroups.Wire.Grammar

/-!
# Type bytes and counts

The table of type bytes in the grammar is the one that readers compute (`typeByte_iff`).  No type
byte announces a count beyond 32 bits (`Count.Spells.lt_of_ofByte`).
-/

namespace AtomicGroups.Wire

/-- The table lists what is computed from each byte that is assigned. -/
theorem typeBytes_eq : typeBytes = (((List.range 256).map UInt8.ofNat).filter
    fun tag => Format.ofByte tag ≠ .reserved).map fun tag => (tag, Format.ofByte tag) := by
  decide +kernel

theorem typeByte_iff {tag : UInt8} {f : Format} :
    TypeByte tag f ↔ Format.ofByte tag = f ∧ f ≠ .reserved := by
  have htag : tag ∈ (List.range 256).map UInt8.ofNat :=
    List.mem_map.2 ⟨tag.toNat, List.mem_range.2 tag.toNat_lt, UInt8.ofNat_toNat⟩
  unfold TypeByte
  rw [typeBytes_eq, List.mem_map]
  simp only [List.mem_filter, decide_eq_true_eq, Prod.mk.injEq]
  constructor
  · rintro ⟨_, ⟨-, hassigned⟩, rfl, rfl⟩
    exact ⟨rfl, hassigned⟩
  · rintro ⟨rfl, hassigned⟩
    exact ⟨tag, ⟨htag, hassigned⟩, rfl, rfl⟩

theorem TypeByte.ofByte_eq {tag : UInt8} {f : Format} (h : TypeByte tag f) :
    Format.ofByte tag = f :=
  (typeByte_iff.1 h).1

theorem typeByte_binary_iff {tag : UInt8} {k : Count} : TypeByte tag (.binary k) ↔
    tag = 0xc4 ∧ k = .wide 1 ∨ tag = 0xc5 ∧ k = .wide 2 ∨ tag = 0xc6 ∧ k = .wide 4 := by
  simp [TypeByte, typeBytes, rows]

/-! ## How far counts go -/

/-- What every count that is found in this place lies below. -/
def Count.bound : Count → Nat
  | .inTag n => n + 1
  | .wide width => 256 ^ width

/-- Where the count of a value is found, if it has one. -/
def Format.count? : Format → Option Count
  | .string k | .binary k | .extension k | .array k | .map k => some k
  | .fixed _ | .reserved => none

theorem Count.Spells.lt_bound {k : Count} {b : Bytes} {n : Nat} (h : k.Spells b n) :
    n < k.bound := by
  cases k with
  | inTag m =>
    obtain ⟨-, rfl⟩ := h
    exact Nat.lt_succ_self n
  | wide width =>
    obtain ⟨rfl, rfl⟩ := h
    exact Bytes.toNat_lt b

/-- No type byte announces a count of more than 32 bits. -/
theorem Format.bound_le (tag : UInt8) : ∀ k ∈ (ofByte tag).count?, k.bound ≤ 2 ^ 32 := by
  have table : ∀ n < 256, ∀ k ∈ (ofByte (UInt8.ofNat n)).count?, k.bound ≤ 2 ^ 32 := by
    decide +kernel
  have h := table tag.toNat tag.toNat_lt
  rwa [UInt8.ofNat_toNat] at h

theorem Count.Spells.lt_of_ofByte {tag : UInt8} {k : Count} {b : Bytes} {n : Nat}
    (h : k.Spells b n) (ht : (Format.ofByte tag).count? = some k) : n < 2 ^ 32 :=
  h.lt_bound.trans_le (Format.bound_le tag k ht)

/-- The number of bytes beside a type byte, if that byte alone says how many there are. -/
def Format.payload? : Format → Option Nat
  | .fixed payload => some payload
  | _ => none

/-- The longest value of a fixed size is an extension of one byte for its type and 16 others. -/
theorem Format.payload_le (tag : UInt8) : ∀ payload ∈ (ofByte tag).payload?, payload ≤ 17 := by
  have table : ∀ n < 256, ∀ payload ∈ (ofByte (UInt8.ofNat n)).payload?, payload ≤ 17 := by
    decide +kernel
  have h := table tag.toNat tag.toNat_lt
  rwa [UInt8.ofNat_toNat] at h

end AtomicGroups.Wire
