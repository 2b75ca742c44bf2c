import Mathlib
import AtomicGroups.Proofs.Record.Decoding
import AtomicGroups.Proofs.Wire.Canonical
import AtomicGroups.Proofs.Wire.Spans

/-!
# Decoding what was encoded

The fields of a record fit limits if each can be written as a key and a value of the grammar
(`Record.FieldsFit`).  The encoding of such a record decodes to it if there are not too many
entries, and not at all otherwise (`Record.FieldsFit.decode_encode_eq_ok_iff`).  Whatever decodes
has fields that fit (`Record.fits_of_decode`), so a record that was decoded is decoded again from
its canonical encoding.
-/

namespace AtomicGroups

open Wire

/-! ## Maps and lists of entries -/

section

variable {entries : List (String × Field)} {key : String} {value : Field}

theorem nodup_keys_iff : (entries.map Prod.fst).Nodup ↔
    entries.Pairwise fun a b => ¬ byteOrder a.1 b.1 = .eq := by
  unfold List.Nodup
  rw [List.pairwise_map]
  simp only [ne_eq, Std.LawfulEqCmp.compare_eq_iff_eq]

theorem getElem?_ofList_eq_some_iff (h : (entries.map Prod.fst).Nodup) :
    (Std.ExtTreeMap.ofList entries byteOrder)[key]? = some value ↔ (key, value) ∈ entries := by
  have hof (v : Field) (hv : (key, v) ∈ entries) :
      (Std.ExtTreeMap.ofList entries byteOrder)[key]? = some v :=
    Std.ExtTreeMap.getElem?_ofList_of_mem Std.ReflCmp.compare_self (nodup_keys_iff.1 h) hv
  constructor
  · intro hget
    have hmem : key ∈ Std.ExtTreeMap.ofList entries byteOrder :=
      Std.ExtTreeMap.mem_iff_isSome_getElem?.2 (by rw [hget]; rfl)
    rw [Std.ExtTreeMap.mem_ofList, List.contains_iff_mem] at hmem
    obtain ⟨⟨_, v⟩, hv, rfl⟩ := List.mem_map.1 hmem
    have heq := hget.symm.trans (hof v hv)
    cases heq
    exact hv
  · exact hof value

theorem nodup_keys_toList (es : FieldMap) : (es.toList.map Prod.fst).Nodup :=
  nodup_keys_iff.2 Std.ExtTreeMap.distinct_keys_toList

theorem ofList_toList (es : FieldMap) : .ofList es.toList byteOrder = es := by
  refine Std.ExtTreeMap.ext_getElem? fun key => Option.ext fun value => ?_
  rw [getElem?_ofList_eq_some_iff (nodup_keys_toList es),
    Std.ExtTreeMap.mem_toList_iff_getElem?_eq_some]

end

namespace Record

variable {limits : Limits} {r s : Record} {b : Bytes}

/-! ## Entries of records -/

theorem size_entries (r : Record) : r.entries.size = r.size + r.isStamped.toNat := by
  unfold entries isStamped
  by_cases h : r.group.isZero
  · rw [if_pos h, h]
    rfl
  · have hkey : ¬ r.fields.contains groupKey := fun hmem =>
      r.groupKey_not_mem (Std.ExtTreeMap.contains_iff_mem.1 hmem)
    rw [if_neg h, Std.ExtTreeMap.size_insert, if_neg hkey, Bool.eq_false_of_not_eq_true h]
    rfl

theorem size_le_size_entries (r : Record) : r.size ≤ r.entries.size := by
  rw [size_entries]
  exact Nat.le_add_right _ _

theorem size_entries_withoutGroup (r : Record) : r.withoutGroup.entries.size = r.size := by
  rw [size_entries]
  have hgroup : r.withoutGroup.isStamped = false := by
    change (!Digest.zero.isZero) = false
    decide
  rw [hgroup]
  rfl

/-- A stamp adds one entry at most. -/
theorem size_entries_withGroup_le (r : Record) (g : Digest) :
    (r.withGroup g).entries.size ≤ r.size + 1 := by
  rw [size_entries]
  exact Nat.add_le_add_left (Bool.toNat_le _) r.size

/-- The entries are the fields and, unless it is zero, the group. -/
theorem getElem?_entries (r : Record) (key : String) : r.entries[key]? =
    if key = groupKey then if r.group.isZero then none else some (Field.binary r.group.bytes)
    else r.field? key := by
  unfold entries
  split_ifs with hzero hkey hkey
  · rw [hkey]
    exact Std.ExtTreeMap.getElem?_eq_none r.groupKey_not_mem
  · rfl
  · rw [hkey, Std.ExtTreeMap.getElem?_insert_self]
  · rw [Std.ExtTreeMap.getElem?_insert, if_neg fun heq => hkey ?_]
    · rfl
    · exact (Std.LawfulEqCmp.eq_of_compare heq).symm

theorem field?_groupKey (r : Record) : r.field? groupKey = none :=
  Std.ExtTreeMap.getElem?_eq_none r.groupKey_not_mem

/-- An entry is a field or the group of a stamped record. -/
theorem mem_entries_iff {key : String} {value : Field} : (key, value) ∈ r.entries.toList ↔
    r.field? key = some value ∨
      r.isStamped = true ∧ key = groupKey ∧ value = Field.binary r.group.bytes := by
  rw [Std.ExtTreeMap.mem_toList_iff_getElem?_eq_some, getElem?_entries]
  unfold isStamped
  by_cases hkey : key = groupKey
  · rw [if_pos hkey, hkey, field?_groupKey]
    split_ifs with hzero
    · simp [hzero]
    · simp [hzero, eq_comm]
  · simp [hkey]

/-- The fields of the record of some entries are the entries but for the group. -/
theorem field?_ofEntries_ofList {entries : List (String × Field)} {key : String} {value : Field}
    (h : (entries.map Prod.fst).Nodup) :
    (ofEntries (.ofList entries byteOrder)).field? key = some value ↔
      key ≠ groupKey ∧ (key, value) ∈ entries := by
  unfold field? ofEntries
  rw [Std.ExtTreeMap.getElem?_erase]
  split_ifs with hkey
  · rw [Std.LawfulEqCmp.compare_eq_iff_eq] at hkey
    simp [hkey]
  · rw [Std.LawfulEqCmp.compare_eq_iff_eq] at hkey
    rw [getElem?_ofList_eq_some_iff h]
    exact (and_iff_right (Ne.symm hkey)).symm

/-- The record of some entries does not have more of them. -/
theorem size_entries_ofEntries_le (es : FieldMap) : (ofEntries es).entries.size ≤ es.size := by
  rw [size_entries]
  change (es.erase groupKey).size + _ ≤ _
  rw [Std.ExtTreeMap.size_erase]
  by_cases hmem : groupKey ∈ es
  · have hne : es.size ≠ 0 := by
      rw [Ne, ← Std.ExtTreeMap.eq_empty_iff_size_eq_zero]
      rintro rfl
      exact Std.ExtTreeMap.not_mem_empty hmem
    have hle := Bool.toNat_le (ofEntries es).isStamped
    rw [if_pos (Std.ExtTreeMap.contains_iff_mem.2 hmem)]
    omega
  · have hgroup : (ofEntries es).group = Digest.zero := by
      unfold ofEntries
      rw [Std.ExtTreeMap.getElem?_eq_none hmem]
      rfl
    rw [if_neg fun h => hmem (Std.ExtTreeMap.contains_iff_mem.1 h), isStamped, hgroup]
    exact le_rfl

/-! ## Encoding -/

/-- Whether the fields of a record can be written and read under limits. -/
structure FieldsFit (limits : Limits) (r : Record) : Prop where
  depth : 0 < limits.maxDepth
  keys : ∀ key ∈ r.fields, (Bytes.ofString key).length < 2 ^ 32
  values : ∀ key value, r.field? key = some value →
    IsValue limits.maxEntries (limits.maxDepth - 1) value.encoded

/-- Stamping a group leaves the fields as they are. -/
theorem FieldsFit.withGroup (h : r.FieldsFit limits) (g : Digest) :
    (r.withGroup g).FieldsFit limits :=
  ⟨h.depth, h.keys, h.values⟩

theorem fieldsFit_empty (h : 0 < limits.maxDepth) : empty.FieldsFit limits :=
  ⟨h, fun _ hkey => absurd hkey Std.ExtTreeMap.not_mem_empty, fun _ _ hfield => by cases hfield⟩

/-- A field that fits may be set. -/
theorem FieldsFit.insert (h : r.FieldsFit limits) {key : String} {value : Field}
    (hkey : (Bytes.ofString key).length < 2 ^ 32)
    (hvalue : IsValue limits.maxEntries (limits.maxDepth - 1) value.encoded) :
    (r.insert key value).FieldsFit limits := by
  refine ⟨h.depth, fun key' hmem => ?_, fun key' value' hfield => ?_⟩
  · rw [mem_fields_iff, field?_insert] at hmem
    split_ifs at hmem with hset
    · rwa [hset.1]
    · exact h.keys key' (mem_fields_iff.2 hmem)
  · rw [field?_insert] at hfield
    split_ifs at hfield
    · cases hfield
      exact hvalue
    · exact h.values key' value' hfield

/-- Looser limits leave room for the same fields. -/
theorem FieldsFit.mono {limits' : Limits} (h : r.FieldsFit limits)
    (hdepth : limits.maxDepth ≤ limits'.maxDepth) (hmax : limits.maxEntries ≤ limits'.maxEntries) :
    r.FieldsFit limits' :=
  ⟨h.depth.trans_le hdepth, h.keys, fun key value hfield =>
    (h.values key value hfield).mono hmax (Nat.sub_le_sub_right hdepth 1)⟩

theorem FieldsFit.of_mem_entries (h : r.FieldsFit limits) {key : String} {value : Field}
    (hmem : (key, value) ∈ r.entries.toList) : (Bytes.ofString key).length < 2 ^ 32 ∧
      IsValue limits.maxEntries (limits.maxDepth - 1) value.encoded := by
  rcases mem_entries_iff.1 hmem with hfield | ⟨-, rfl, rfl⟩
  · exact ⟨h.keys key (mem_fields_iff.2 (by rw [hfield]; rfl)), h.values key value hfield⟩
  · refine ⟨by decide +kernel, isValue_binary ?_⟩
    rw [r.group.length_bytes]
    decide

end Record

/-- Entries that the grammar allows are encoded as it says. -/
theorem areEntries_flatMap {e h : Nat} (entries : List (String × Field))
    (hfit : ∀ entry ∈ entries, (Bytes.ofString entry.1).length < 2 ^ 32 ∧
      IsValue e h entry.2.encoded) : AreEntries e h entries (entries.flatMap encodeEntry) := by
  induction entries with
  | nil => exact .nil
  | cons entry entries ih =>
    obtain ⟨hkey, hvalue⟩ := hfit entry List.mem_cons_self
    exact .cons (isKey_string hkey) hvalue
      (ih fun later hlater => hfit later (List.mem_cons_of_mem _ hlater))

namespace Record

variable {limits : Limits} {r s : Record} {b : Bytes}

theorem FieldsFit.areEntries (h : r.FieldsFit limits) :
    AreEntries limits.maxEntries (limits.maxDepth - 1) r.entries.toList
      (r.entries.toList.flatMap encodeEntry) :=
  areEntries_flatMap _ fun _ hmem => h.of_mem_entries hmem

/-- The encoding of a record whose fields fit is a record of the grammar if the entries are not too
many. -/
theorem FieldsFit.isRecord_encode (h : r.FieldsFit limits)
    (hmax : r.entries.size ≤ limits.maxEntries) (hcount : r.entries.size < 2 ^ 32) :
    IsRecord limits r.entries.toList r.encode := by
  obtain ⟨tag, k, count, hheader, ht, hk⟩ := Canonical.mapHeader_spells r.entries.size
  rw [Nat.mod_eq_of_lt hcount, ← Std.ExtTreeMap.length_toList] at hk
  rw [← Std.ExtTreeMap.length_toList] at hmax
  unfold encode encodeEntries
  rw [hheader]
  refine isRecord_iff.2 ⟨tag, k, count, _, rfl, ht, hk, hmax, h.depth, h.areEntries,
    nodup_keys_toList _, fun value hmem => ?_⟩
  rcases mem_entries_iff.1 hmem with hfield | ⟨-, -, rfl⟩
  · rw [field?_groupKey] at hfield
    cases hfield
  · rw [Field.digest?_binary]
    rfl

/-- Nothing else can be read from it. -/
theorem FieldsFit.eq_of_isRecord_encode (h : r.FieldsFit limits) {entries : List (String × Field)}
    (hb : IsRecord limits entries r.encode) : entries = r.entries.toList := by
  obtain ⟨tag, k, count, hheader, ht, hk⟩ := Canonical.mapHeader_spells r.entries.size
  obtain ⟨tag', k', count', body, hbytes, ht', hk', -, -, hb, -⟩ := isRecord_iff.1 hb
  unfold encode encodeEntries at hbytes
  rw [hheader, List.cons_append] at hbytes
  injection hbytes with htag hrest
  subst htag
  rw [ht] at ht'
  cases ht'
  obtain ⟨-, hbody, -⟩ := (Reader.reads_count k).unique hk hk' hrest
  exact (h.areEntries.unique hb hbody).symm

/-- The encoding of a record whose fields fit decodes to the record if the entries are not too many
for the limits and for a header, and not at all otherwise. -/
theorem FieldsFit.decode_encode_eq_ok_iff (h : r.FieldsFit limits) :
    decode limits r.encode = .ok s ↔
      s = r ∧ r.entries.size ≤ limits.maxEntries ∧ r.entries.size < 2 ^ 32 := by
  rw [decode_eq_ok_iff]
  constructor
  · rintro ⟨entries, hb, rfl⟩
    have hentries := h.eq_of_isRecord_encode hb
    obtain ⟨tag, k, count, body, -, ht, hk, hmax, -⟩ := isRecord_iff.1 hb
    have hcount := hk.lt_of_ofByte (by rw [ht]; rfl)
    rw [hentries, Std.ExtTreeMap.length_toList] at hmax hcount
    rw [hentries, ofList_toList, ofEntries_entries]
    exact ⟨rfl, hmax, hcount⟩
  · rintro ⟨rfl, hmax, hcount⟩
    refine ⟨_, h.isRecord_encode hmax hcount, ?_⟩
    rw [ofList_toList, ofEntries_entries]

/-- It is not read as another record, under whatever limits. -/
theorem FieldsFit.eq_of_decode_encode {limits' : Limits} (h : r.FieldsFit limits)
    (hs : decode limits' r.encode = .ok s) : s = r := by
  have hdepth := le_max_left limits.maxDepth limits'.maxDepth
  have hmax := le_max_left limits.maxEntries limits'.maxEntries
  have hs' : decode ⟨max limits.maxDepth limits'.maxDepth,
      max limits.maxEntries limits'.maxEntries⟩ r.encode = .ok s :=
    decode_mono limits' (le_max_right _ _) (le_max_right _ _) hs
  exact ((h.mono hdepth hmax).decode_encode_eq_ok_iff.1 hs').1

/-- The fields of whatever decodes fit, and its entries are not too many. -/
theorem fits_of_decode (h : decode limits b = .ok r) :
    r.FieldsFit limits ∧ r.entries.size ≤ limits.maxEntries ∧ r.entries.size < 2 ^ 32 := by
  obtain ⟨entries, hb, rfl⟩ := (decode_eq_ok_iff limits).1 h
  obtain ⟨tag, k, count, body, -, ht, hk, hmax, hdepth, hb, hnodup, -⟩ := isRecord_iff.1 hb
  have hcount := hk.lt_of_ofByte (by rw [ht]; rfl)
  have hsize : (ofEntries (.ofList entries byteOrder)).entries.size ≤ entries.length :=
    (size_entries_ofEntries_le _).trans Std.ExtTreeMap.size_ofList_le
  have hentry (key : String) (value : Field)
      (hfield : (ofEntries (.ofList entries byteOrder)).field? key = some value) :
      (key, value) ∈ entries :=
    ((field?_ofEntries_ofList hnodup).1 hfield).2
  refine ⟨⟨hdepth, fun key hkey => ?_, fun key value hfield => ?_⟩, hsize.trans hmax,
    hsize.trans_lt hcount⟩
  · obtain ⟨value, hfield⟩ := Option.isSome_iff_exists.1 (mem_fields_iff.1 hkey)
    obtain ⟨⟨name, hname⟩, -⟩ := hb.of_mem (hentry key value hfield)
    exact hname.length_lt
  · exact (hb.of_mem (hentry key value hfield)).2

/-- What was decoded is decoded again without its group, under any looser limits. -/
theorem decode_encode_withoutGroup {limits' : Limits} (h : decode limits b = .ok r)
    (hdepth : limits.maxDepth ≤ limits'.maxDepth) (hmax : limits.maxEntries ≤ limits'.maxEntries) :
    decode limits' r.withoutGroup.encode = .ok r.withoutGroup := by
  obtain ⟨hfit, hsize, hcount⟩ := fits_of_decode h
  have hle := r.size_le_size_entries
  have hfit' : r.withoutGroup.FieldsFit limits' := (hfit.withGroup Digest.zero).mono hdepth hmax
  refine hfit'.decode_encode_eq_ok_iff.2 ⟨rfl, ?_⟩
  rw [size_entries_withoutGroup]
  omega

/-- Without their groups, two records that were decoded have the same encoding only if they have the
same fields. -/
theorem fields_eq_of_encode_eq {limits' : Limits} {b' : Bytes} (hr : decode limits b = .ok r)
    (hs : decode limits' b' = .ok s) (h : r.withoutGroup.encode = s.withoutGroup.encode) :
    r.fields = s.fields := by
  let both : Limits :=
    ⟨max limits.maxDepth limits'.maxDepth, max limits.maxEntries limits'.maxEntries⟩
  have hr' : decode both r.withoutGroup.encode = .ok r.withoutGroup :=
    decode_encode_withoutGroup hr (le_max_left _ _) (le_max_left _ _)
  have hs' : decode both s.withoutGroup.encode = .ok s.withoutGroup :=
    decode_encode_withoutGroup hs (le_max_right _ _) (le_max_right _ _)
  rw [h, hs'] at hr'
  injection hr' with heq
  exact (congrArg Record.fields heq).symm

/-- A record decodes to itself from its encoding, provided that each of its values is read to its
end and that there are not too many entries.  What was decoded meets this. -/
theorem decode_encode (limits : Limits) :
    (∀ r : Record, 1 ≤ limits.maxDepth →
      (∀ key ∈ r.fields, (Bytes.ofString key).length < 2 ^ 32) →
      r.size + r.isStamped.toNat < 2 ^ 32 → r.size + r.isStamped.toNat ≤ limits.maxEntries →
      (∀ key value, r.field? key = some value → ∃ span c,
        Reader.value limits 1 (Cursor.start value.encoded) = .ok span c ∧ c.rest = []) →
      decode limits r.encode = .ok r) ∧
    ∀ b r, decode limits b = .ok r → decode limits r.encode = .ok r := by
  constructor
  · intro r hdepth hkeys hcount hmax hvalues
    have hfit : r.FieldsFit limits := by
      refine ⟨hdepth, hkeys, fun key value hfield => ?_⟩
      obtain ⟨span, c, h, hc⟩ := hvalues key value hfield
      exact isValue_of_value_eq_ok h hc
    rw [← size_entries] at hcount hmax
    exact hfit.decode_encode_eq_ok_iff.2 ⟨rfl, hmax, hcount⟩
  · intro b r h
    obtain ⟨hfit, hmax, hcount⟩ := fits_of_decode h
    exact hfit.decode_encode_eq_ok_iff.2 ⟨rfl, hmax, hcount⟩

theorem decode_empty (hdepth : 0 < limits.maxDepth) : decode limits [0x80] = .ok empty :=
  (fieldsFit_empty hdepth).decode_encode_eq_ok_iff.2 ⟨rfl, Nat.zero_le _, by decide⟩

/-- A record with one small number. -/
def oneField : Record := empty.insert "a" ⟨[0x01]⟩

theorem fieldsFit_oneField (h : 0 < limits.maxDepth) : oneField.FieldsFit limits :=
  (fieldsFit_empty h).insert (by decide) (.fixed (by decide))

theorem decode_oneField (hdepth : 0 < limits.maxDepth) (hmax : 0 < limits.maxEntries) :
    decode limits [0x81, 0xa1, 0x61, 0x01] = .ok oneField :=
  (fieldsFit_oneField hdepth).decode_encode_eq_ok_iff.2 ⟨rfl, hmax, by decide⟩

/-- Stamped with whatever group, it has two entries at most. -/
theorem decode_encode_oneField_withGroup (hdepth : 0 < limits.maxDepth)
    (hmax : 2 ≤ limits.maxEntries) (g : Digest) :
    decode limits (oneField.withGroup g).encode = .ok (oneField.withGroup g) := by
  have hsize : (oneField.withGroup g).entries.size ≤ 2 := oneField.size_entries_withGroup_le g
  exact ((fieldsFit_oneField hdepth).withGroup g).decode_encode_eq_ok_iff.2
    ⟨rfl, hsize.trans hmax, by omega⟩

/-- A stamped record with one field, read back under the least limits that allow it. -/
theorem decode_encode_oneField :
    let r := oneField.withGroup ⟨List.replicate 32 1, rfl⟩
    decode ⟨1, 2⟩ r.encode = .ok r := by
  have hfit : oneField.FieldsFit ⟨1, 2⟩ := fieldsFit_oneField (by decide)
  refine (decode_encode ⟨1, 2⟩).1 _ (by decide) hfit.keys (by decide) (by decide) ?_
  intro key value hfield
  exact ⟨value.encoded, (Cursor.start value.encoded).advance value.encoded.length,
    (Reader.reads_value ⟨1, 2⟩ 1 _).run (List.append_nil _).symm
      ⟨rfl, hfit.values key value hfield⟩, List.drop_length⟩

end Record

end AtomicGroups
