import Mathlib
import AtomicGroups.Bytes.Lemmas
import AtomicGroups.Record.Basic

/-!
# Fields and entries

The payload of a canonical binary is read back (`Field.payload?_binary`), so a digest that is
written as a field is read back too.  Hence a record is the record of its entries
(`Record.ofEntries_entries`).
-/

namespace AtomicGroups

/-! ## The order of keys -/

/-- Byte strings are compared as words are in a dictionary. -/
theorem Bytes.compare_eq_lt_iff {bs cs : Bytes} : compare bs cs = .lt ↔ bs < cs := by
  change List.compareLex compare bs cs = .lt ↔ bs < cs
  induction bs generalizing cs with
  | nil => cases cs <;> simp [List.compareLex_nil_nil, List.compareLex_nil_cons]
  | cons b bs ih =>
    cases cs with
    | nil => simp [List.compareLex_cons_nil]
    | cons c cs =>
      rw [List.compareLex_cons_cons, Ordering.then_eq_lt, Std.compare_eq_lt,
        Std.LawfulEqOrd.compare_eq_iff_eq, ih, List.cons_lt_cons_iff]

/-- Keys come in the order of their bytes. -/
theorem byteOrder_eq_lt_iff {a b : String} :
    byteOrder a b = .lt ↔ Bytes.ofString a < Bytes.ofString b :=
  Bytes.compare_eq_lt_iff

/-- A map lists its keys in ascending order. -/
theorem pairwise_keys_toList (es : FieldMap) :
    (es.toList.map Prod.fst).Pairwise fun a b => Bytes.ofString a < Bytes.ofString b := by
  rw [List.pairwise_map]
  exact es.ordered_keys_toList.imp byteOrder_eq_lt_iff.1

namespace Field

/-- A payload is read back behind a header of any width that its length fits. -/
theorem payload?_of_format {tag : UInt8} {width : Nat} {payload : Bytes}
    (htag : Wire.Format.ofByte tag = .binary (.wide width)) (h : payload.length < 256 ^ width) :
    payload? ⟨tag :: (Bytes.ofNat width payload.length ++ payload)⟩ = some payload := by
  have hcount : (Bytes.ofNat width payload.length).length = width := Bytes.length_ofNat ..
  have hnum : Bytes.toNat (Bytes.ofNat width payload.length) = payload.length :=
    Bytes.toNat_ofNat_of_lt h
  simp only [payload?, htag, List.take_left' hcount, List.drop_left' hcount, hnum]
  exact if_pos ⟨by simp, trivial⟩

theorem payload?_binary {payload : Bytes} (h : payload.length < 0x100000000) :
    (binary payload).payload? = some payload := by
  unfold binary Wire.Canonical.binary Wire.Canonical.blobHeader
  split_ifs with h₁ h₂
  · exact payload?_of_format (by decide) (by omega)
  · exact payload?_of_format (by decide) (by omega)
  · exact payload?_of_format (by decide) (by omega)

@[simp] theorem digest?_binary (d : Digest) : (binary d.bytes).digest? = some d := by
  rw [digest?, payload?_binary (by rw [d.length_bytes]; decide)]
  exact Digest.ofBytes?_bytes d

end Field

namespace Record

@[ext] theorem ext {r s : Record} (hf : r.fields = s.fields) (hg : r.group = s.group) : r = s := by
  cases r; cases s; cases hf; cases hg; rfl

theorem mem_fields_iff {r : Record} {key : String} : key ∈ r.fields ↔ (r.field? key).isSome :=
  Std.ExtTreeMap.mem_iff_isSome_getElem?

/-- Setting a field changes no other, and under the group key it changes none. -/
theorem field?_insert (r : Record) (key : String) (value : Field) (key' : String) :
    (r.insert key value).field? key' =
      if key' = key ∧ key ≠ groupKey then some value else r.field? key' := by
  unfold insert
  split
  · next hkey =>
    rw [if_neg fun h => h.2 hkey]
    split <;> rfl
  · next hkey =>
    unfold field?
    rw [Std.ExtTreeMap.getElem?_insert]
    by_cases heq : key' = key
    · rw [heq, if_pos Std.ReflCmp.compare_self, if_pos ⟨rfl, hkey⟩]
    · rw [if_neg fun h => heq (Std.LawfulEqCmp.eq_of_compare h).symm, if_neg fun h => heq h.1]

theorem isStamped_iff {r : Record} : r.isStamped = true ↔ r.group ≠ Digest.zero := by
  unfold isStamped
  rw [Bool.not_eq_true', ← Bool.not_eq_true, Digest.isZero_iff]

theorem isStamped_eq_false_iff {r : Record} : r.isStamped = false ↔ r.group = Digest.zero := by
  rw [← Bool.not_eq_true, isStamped_iff, not_not]

/-- A record is the record of its entries. -/
@[simp] theorem ofEntries_entries (r : Record) : ofEntries r.entries = r := by
  have hkey := r.groupKey_not_mem
  unfold entries
  split
  · next h =>
    refine Record.ext ?_ ?_
    · refine Std.ExtTreeMap.ext_getElem? fun key => ?_
      simp only [ofEntries, Std.ExtTreeMap.getElem?_erase]
      split
      · next heq =>
        obtain rfl := Std.LawfulEqCmp.eq_of_compare heq
        exact (Std.ExtTreeMap.getElem?_eq_none hkey).symm
      · rfl
    · simp only [ofEntries, Std.ExtTreeMap.getElem?_eq_none hkey]
      exact (Digest.isZero_iff.1 h).symm
  · refine Record.ext ?_ ?_
    · refine Std.ExtTreeMap.ext_getElem? fun key => ?_
      simp only [ofEntries, Std.ExtTreeMap.getElem?_erase, Std.ExtTreeMap.getElem?_insert]
      split
      · next h =>
        obtain rfl := Std.LawfulEqCmp.eq_of_compare h
        exact (Std.ExtTreeMap.getElem?_eq_none hkey).symm
      · rfl
    · simp [ofEntries]

end Record

end AtomicGroups
