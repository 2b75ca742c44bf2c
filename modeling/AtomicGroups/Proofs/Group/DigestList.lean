import Mathlib
import AtomicGroups.Proofs.Group.Composition
import AtomicGroups.Proofs.Record.Canonical

/-!
# Lists of digests as records

A list of digests is encoded as a record whose only field is the array of the digests, and the empty
list as the record without fields (`Group.encode_listRecord`).  So the encoding decodes to that
record under all limits that allow an array of this length inside a map, and is canonical.
-/

namespace AtomicGroups.Group

open Wire

variable {limits : Limits} {ds : List Digest} {maxEntries height : Nat}

/-- The array of a list of digests. -/
def listField (ds : List Digest) : Field :=
  ⟨Canonical.arrayHeader ds.length ++ ds.flatMap fun d => Canonical.binary d.bytes⟩

/-- The record that a list of digests is encoded as. -/
def listRecord (ds : List Digest) : Record :=
  if ds = [] then Record.empty else Record.empty.insert listKey (listField ds)

theorem areValues_flatMap_binary (ds : List Digest) :
    AreValues maxEntries height ds.length (ds.flatMap fun d => Canonical.binary d.bytes) := by
  induction ds with
  | nil => exact .nil
  | cons d ds ih => exact .cons (isValue_binary (by rw [d.length_bytes]; decide)) ih

theorem isValue_listField (hlen : ds.length < 2 ^ 32) (hmax : ds.length ≤ maxEntries) :
    IsValue maxEntries (height + 1) (listField ds).encoded := by
  obtain ⟨tag, k, count, hheader, ht, hk⟩ := Canonical.arrayHeader_spells ds.length
  rw [Nat.mod_eq_of_lt hlen] at hk
  unfold listField
  rw [hheader]
  exact .array (typeByte_iff.2 ⟨ht, Format.noConfusion⟩) hk hmax (areValues_flatMap_binary ds)

theorem listRecord_nil : listRecord [] = Record.empty := if_pos rfl

theorem listRecord_of_ne_nil (h : ds ≠ []) :
    listRecord ds = Record.empty.insert listKey (listField ds) :=
  if_neg h

/-- The key of the list is not that of a group, so it is the key of a field. -/
theorem toList_fields_listRecord (h : ds ≠ []) :
    (listRecord ds).fields.toList = [(listKey, listField ds)] := by
  rw [listRecord_of_ne_nil h]
  rfl

theorem group_listRecord (ds : List Digest) : (listRecord ds).group = Digest.zero := by
  unfold listRecord
  split_ifs <;> rfl

theorem entries_listRecord (ds : List Digest) : (listRecord ds).entries = (listRecord ds).fields := by
  unfold Record.entries
  exact if_pos (Digest.isZero_iff.2 (group_listRecord ds))

theorem size_entries_listRecord_le (ds : List Digest) : (listRecord ds).entries.size ≤ 1 := by
  rw [entries_listRecord, ← Std.ExtTreeMap.length_toList]
  by_cases h : ds = []
  · rw [h, listRecord_nil]
    exact Nat.zero_le 1
  · rw [toList_fields_listRecord h]
    exact le_rfl

theorem encode_listRecord (ds : List Digest) : (listRecord ds).encode = encodeList ds := by
  by_cases h : ds = []
  · rw [h, listRecord_nil]
    rfl
  · rw [encodeList_of_ne_nil h]
    unfold Record.encode encodeEntries
    rw [entries_listRecord, ← Std.ExtTreeMap.length_toList, toList_fields_listRecord h,
      List.flatMap_singleton, List.append_assoc]
    rfl

/-- The array of the digests is a container inside the outermost map. -/
theorem fieldsFit_listRecord (hlen : ds.length < 2 ^ 32) (hdepth : 2 ≤ limits.maxDepth)
    (hmax : ds.length ≤ limits.maxEntries) : (listRecord ds).FieldsFit limits := by
  have hempty : Record.empty.FieldsFit limits := Record.fieldsFit_empty (by omega)
  by_cases h : ds = []
  · rwa [h, listRecord_nil]
  · rw [listRecord_of_ne_nil h]
    refine hempty.insert (by decide +kernel) ?_
    obtain ⟨height, hheight⟩ := Nat.exists_eq_add_of_le' hdepth
    rw [hheight]
    exact isValue_listField hlen hmax

/-- The encoding of a list of digests is that of its record, to which it decodes under all limits
that allow a container inside another and entries enough; lists that are encoded alike are equal. -/
theorem encodeList_canonical :
    Function.Injective encodeList ∧
    ∀ (limits : Limits) (ds : List Digest), ds.length < 2 ^ 32 → 2 ≤ limits.maxDepth →
      max 1 ds.length ≤ limits.maxEntries →
      ∃ r, Record.decode limits (encodeList ds) = .ok r ∧ r.encode = encodeList ds ∧
        r.group = Digest.zero ∧
        (ds = [] → r = Record.empty) ∧
        (ds ≠ [] → r.fields.toList = [("txlist", listField ds)]) := by
  refine ⟨fun _ _ h => encodeList_injective h, fun limits ds hlen hdepth hmax => ?_⟩
  obtain ⟨hone, hentries⟩ := max_le_iff.1 hmax
  have hsize := size_entries_listRecord_le ds
  refine ⟨listRecord ds, ?_, encode_listRecord ds, group_listRecord ds, ?_,
    toList_fields_listRecord⟩
  · rw [← encode_listRecord]
    exact (fieldsFit_listRecord hlen hdepth hentries).decode_encode_eq_ok_iff.2
      ⟨rfl, hsize.trans hone, hsize.trans_lt (by decide)⟩
  · rintro rfl
    exact listRecord_nil

/-- Two digests under the least limits that allow them, and in the other order. -/
theorem encodeList_canonical_pair :
    let d : Digest := ⟨List.replicate 32 1, rfl⟩
    (∃ r, Record.decode ⟨2, 2⟩ (encodeList [d, Digest.zero]) = .ok r ∧
      r.fields.toList = [("txlist", listField [d, Digest.zero])]) ∧
    encodeList [d, Digest.zero] ≠ encodeList [Digest.zero, d] := by
  intro d
  obtain ⟨hinjective, hdecode⟩ := encodeList_canonical
  obtain ⟨r, hr, -, -, -, hfields⟩ :=
    hdecode ⟨2, 2⟩ [d, Digest.zero] (by decide) (by decide) (by decide)
  exact ⟨⟨r, hr, hfields (List.cons_ne_nil _ _)⟩, hinjective.ne (by decide)⟩

end AtomicGroups.Group
