import Mathlib
import AtomicGroups.Proofs.Wire.TypeByte
import AtomicGroups.Wire.Canonical

/-!
# Canonical headers in the grammar

A canonical header is one that the format allows.  It gives the count as far as 32 bits go, so
canonical keys and binaries below `2 ^ 32` bytes belong to the grammar.
-/

namespace AtomicGroups.Wire

/-! ## Canonical headers -/

theorem Count.spells_ofNat (width n : Nat) :
    (Count.wide width).Spells (Bytes.ofNat width n) (n % 256 ^ width) :=
  ⟨Bytes.length_ofNat .., (Bytes.toNat_ofNat ..).symm⟩

theorem Format.ofByte_fixmap : ∀ n < 16, ofByte (0x80 + UInt8.ofNat n) = .map (.inTag n) := by
  decide

theorem Format.ofByte_fixarray : ∀ n < 16, ofByte (0x90 + UInt8.ofNat n) = .array (.inTag n) := by
  decide

theorem Format.ofByte_fixstr : ∀ n < 32, ofByte (0xa0 + UInt8.ofNat n) = .string (.inTag n) := by
  decide

theorem Format.ofByte_positive {n : Nat} (h : n < 0x80) : ofByte (UInt8.ofNat n) = .fixed 0 := by
  unfold ofByte
  dsimp only
  rw [UInt8.toNat_ofNat', if_pos (by omega)]

namespace Canonical

/-- What the header of a container spells is the count, as far as 32 bits go; by the type bytes for
small counts and for the two widths. -/
theorem containerHeader_spells (short wide : UInt8) (format : Count → Format)
    (hshort : ∀ n < 16, Format.ofByte (short + UInt8.ofNat n) = format (.inTag n))
    (h₂ : Format.ofByte wide = format (.wide 2)) (h₄ : Format.ofByte (wide + 1) = format (.wide 4))
    (n : Nat) : ∃ tag k count, containerHeader short wide n = tag :: count ∧
      Format.ofByte tag = format k ∧ k.Spells count (n % 2 ^ 32) := by
  unfold containerHeader
  split_ifs with hn hn'
  · exact ⟨_, .inTag n, [], rfl, hshort n hn, rfl, Nat.mod_eq_of_lt (by omega)⟩
  · refine ⟨wide, .wide 2, _, rfl, h₂, ?_⟩
    rw [show n % 2 ^ 32 = n % 256 ^ 2 by omega]
    exact Count.spells_ofNat 2 n
  · exact ⟨wide + 1, .wide 4, _, rfl, h₄, Count.spells_ofNat 4 n⟩

theorem mapHeader_spells (n : Nat) : ∃ tag k count,
    mapHeader n = tag :: count ∧ Format.ofByte tag = .map k ∧ k.Spells count (n % 2 ^ 32) :=
  containerHeader_spells 0x80 0xde .map Format.ofByte_fixmap (by decide) (by decide) n

theorem arrayHeader_spells (n : Nat) : ∃ tag k count,
    arrayHeader n = tag :: count ∧ Format.ofByte tag = .array k ∧ k.Spells count (n % 2 ^ 32) :=
  containerHeader_spells 0x90 0xdc .array Format.ofByte_fixarray (by decide) (by decide) n

/-- The header of a text or binary, by the type bytes for its three widths. -/
theorem blobHeader_spells (wide : UInt8) (format : Count → Format)
    (h₁ : Format.ofByte wide = format (.wide 1)) (h₂ : Format.ofByte (wide + 1) = format (.wide 2))
    (h₄ : Format.ofByte (wide + 2) = format (.wide 4)) (n : Nat) : ∃ tag k count,
    blobHeader wide n = tag :: count ∧ Format.ofByte tag = format k ∧
      k.Spells count (n % 2 ^ 32) := by
  unfold blobHeader
  split_ifs with hn hn'
  · refine ⟨wide, .wide 1, _, rfl, h₁, ?_⟩
    rw [show n % 2 ^ 32 = n % 256 ^ 1 by omega]
    exact Count.spells_ofNat 1 n
  · refine ⟨wide + 1, .wide 2, _, rfl, h₂, ?_⟩
    rw [show n % 2 ^ 32 = n % 256 ^ 2 by omega]
    exact Count.spells_ofNat 2 n
  · exact ⟨wide + 2, .wide 4, _, rfl, h₄, Count.spells_ofNat 4 n⟩

theorem stringHeader_spells (n : Nat) : ∃ tag k count,
    stringHeader n = tag :: count ∧ Format.ofByte tag = .string k ∧
      k.Spells count (n % 2 ^ 32) := by
  unfold stringHeader
  split_ifs with hn
  · exact ⟨_, .inTag n, [], rfl, Format.ofByte_fixstr n hn, rfl, Nat.mod_eq_of_lt (by omega)⟩
  · exact blobHeader_spells 0xd9 .string (by decide) (by decide) (by decide) n

/-- What follows the type byte of a binary spells its length, as far as 32 bits go. -/
theorem binaryHeader_spells (n : Nat) : ∃ tag k count,
    blobHeader 0xc4 n = tag :: count ∧ Format.ofByte tag = .binary k ∧
      k.Spells count (n % 2 ^ 32) :=
  blobHeader_spells 0xc4 .binary (by decide) (by decide) (by decide) n

/-- The type byte of a number says how many bytes follow it. -/
theorem exists_unsigned_eq (n : Nat) : ∃ tag payload,
    unsigned n = tag :: payload ∧ Format.ofByte tag = .fixed payload.length := by
  unfold unsigned
  split_ifs with h₁
  · exact ⟨_, [], rfl, Format.ofByte_positive h₁⟩
  all_goals
    refine ⟨_, _, rfl, ?_⟩
    rw [Bytes.length_ofNat]
    decide

end Canonical

/-- Every text of less than `2 ^ 32` bytes is written as a key of the grammar. -/
theorem isKey_string {s : String} (h : (Bytes.ofString s).length < 2 ^ 32) :
    IsKey (Canonical.string s) s := by
  obtain ⟨tag, k, count, hheader, ht, hk⟩ := Canonical.stringHeader_spells (Bytes.ofString s).length
  rw [Nat.mod_eq_of_lt h] at hk
  change IsKey (Canonical.stringHeader _ ++ _) s
  rw [hheader]
  exact .mk (typeByte_iff.2 ⟨ht, Format.noConfusion⟩) hk

theorem isBinary_binary {payload : Bytes} (hlen : payload.length < 2 ^ 32) :
    IsBinary payload (Canonical.binary payload) := by
  obtain ⟨tag, k, count, hheader, ht, hk⟩ := Canonical.binaryHeader_spells payload.length
  rw [Nat.mod_eq_of_lt hlen] at hk
  unfold Canonical.binary
  rw [hheader]
  exact .mk (typeByte_iff.2 ⟨ht, Format.noConfusion⟩) hk

/-- A binary with a payload is a value. -/
theorem IsBinary.isValue {e h : Nat} {payload b : Bytes} (hb : IsBinary payload b) :
    IsValue e h b := by
  obtain ⟨ht, hk⟩ := hb
  exact .binary ht hk

theorem isValue_binary {e h : Nat} {payload : Bytes} (hlen : payload.length < 2 ^ 32) :
    IsValue e h (Canonical.binary payload) :=
  (isBinary_binary hlen).isValue

/-- A key is a value like any other text. -/
theorem IsKey.isValue {e h : Nat} {b : Bytes} {s : String} (hb : IsKey b s) : IsValue e h b := by
  cases hb with
  | mk ht hk => exact .string ht hk

theorem isValue_unsigned {e h : Nat} (n : Nat) : IsValue e h (Canonical.unsigned n) := by
  obtain ⟨tag, payload, hunsigned, ht⟩ := Canonical.exists_unsigned_eq n
  rw [hunsigned]
  exact .fixed (typeByte_iff.2 ⟨ht, Format.noConfusion⟩)

/-- A key of the grammar is a text of less than `2 ^ 32` bytes. -/
theorem IsKey.length_lt {b : Bytes} {s : String} (h : IsKey b s) :
    (Bytes.ofString s).length < 2 ^ 32 := by
  cases h with
  | mk ht hk => exact hk.lt_of_ofByte (by rw [ht.ofByte_eq]; rfl)

end AtomicGroups.Wire
