import Mathlib
import AtomicGroups.Proofs.Record.Rewriting
import AtomicGroups.Proofs.Wire.Shortest

/-!
# Canonical layouts

The encoding of a record has the canonical layout (`Record.exists_isCanonical`), and a canonical
layout is that of the encoding of the record that it holds (`Layout.IsCanonical.encode_eq`).  So
decoding and encoding again gives back exactly the inputs that are laid out in the canonical way,
and without the group those of them that have none (`Record.encode_withoutGroup_eq_iff`).
-/

namespace AtomicGroups

open Wire

variable {limits : Limits} {r : Record} {l : Layout}

/-- The canonical binary of a digest. -/
theorem Field.binary_bytes (d : Digest) : Field.binary d.bytes = ⟨0xc4 :: 0x20 :: d.bytes⟩ := by
  unfold Field.binary Canonical.binary Canonical.blobHeader
  rw [d.length_bytes]
  rfl

/-! ## Entries in order -/

/-- A list of entries in the order of their keys is what the map of them lists. -/
theorem toList_ofList_of_ascending {entries : List (String × Field)}
    (h : entries.Pairwise fun a b => byteOrder a.1 b.1 = .lt) :
    (Std.ExtTreeMap.ofList entries byteOrder).toList = entries := by
  have hne {a b : String} (hlt : byteOrder a b = .lt) : a ≠ b := by
    rintro rfl
    exact Std.OrientedCmp.not_lt_of_lt hlt hlt
  have hkeys : (entries.map Prod.fst).Nodup := List.pairwise_map.2 (h.imp hne)
  have hordered := (Std.ExtTreeMap.ofList entries byteOrder).ordered_keys_toList
  refine List.Perm.eq_of_pairwise (fun a b _ _ hab hba => ?_) hordered h ?_
  · exact absurd hba (Std.OrientedCmp.not_lt_of_lt hab)
  · refine (List.perm_ext_iff_of_nodup (nodup_keys_toList _).of_map hkeys.of_map).2 ?_
    rintro ⟨key, value⟩
    rw [Std.ExtTreeMap.mem_toList_iff_getElem?_eq_some, getElem?_ofList_eq_some_iff hkeys]

/-- Entries whose group is written as a record writes it are the entries of their record. -/
theorem Record.entries_ofEntries {es : FieldMap}
    (h : ∀ value, es[groupKey]? = some value →
      ∃ d : Digest, d ≠ Digest.zero ∧ value = Field.binary d.bytes) :
    (ofEntries es).entries = es := by
  refine Std.ExtTreeMap.ext_getElem? fun key => ?_
  unfold entries ofEntries
  dsimp only
  cases hget : es[groupKey]? with
  | none =>
    rw [if_pos (by decide), Std.ExtTreeMap.getElem?_erase]
    split_ifs with hkey
    · rw [← Std.LawfulEqCmp.eq_of_compare hkey, hget]
    · rfl
  | some value =>
    obtain ⟨d, hzero, rfl⟩ := h value hget
    have hstamped : ¬ d.isZero = true := fun hd => hzero (Digest.isZero_iff.1 hd)
    rw [Option.bind_some, Field.digest?_binary, Option.getD_some, if_neg hstamped,
      Std.ExtTreeMap.getElem?_insert, Std.ExtTreeMap.getElem?_erase]
    split_ifs with hkey
    · rw [← Std.LawfulEqCmp.eq_of_compare hkey, hget]
    · rfl

/-! ## The layout of an encoding -/

/-- Entries can be written with canonical keys. -/
theorem exists_writtenEntries {entries : List (String × Field)}
    (h : ∀ entry ∈ entries, (Bytes.ofString entry.1).length < 2 ^ 32) :
    ∃ es : List WrittenEntry, es.map WrittenEntry.pair = entries ∧
      ∀ e ∈ es, e.name = Canonical.string e.key := by
  induction entries with
  | nil => exact ⟨[], rfl, by simp⟩
  | cons entry entries ih =>
    obtain ⟨hentry, hentries⟩ := List.forall_mem_cons.1 h
    obtain ⟨es, rfl, hes⟩ := ih hentries
    exact ⟨⟨_, entry.1, entry.2, isKey_string hentry⟩ :: es, rfl,
      List.forall_mem_cons.2 ⟨rfl, hes⟩⟩

/-- Entries with canonical keys are written as they are encoded. -/
theorem flatMap_bytes_of_names {es : List WrittenEntry}
    (h : ∀ e ∈ es, e.name = Canonical.string e.key) :
    es.flatMap WrittenEntry.bytes = (es.map WrittenEntry.pair).flatMap encodeEntry := by
  rw [List.flatMap_map]
  refine List.flatMap_congr fun e he => ?_
  unfold WrittenEntry.bytes encodeEntry WrittenEntry.pair
  rw [h e he]

theorem Layout.length_entries_lt (l : Layout) : l.entries.length < 2 ^ 32 := by
  obtain ⟨tag, k, count, -, ht, hk⟩ := isHeader_iff.1 l.isHeader
  exact hk.lt_of_ofByte (by rw [ht.ofByte_eq]; rfl)

/-- The group is an entry only if it is not zero. -/
theorem Record.eq_of_mem_entries {value : Field} (h : (groupKey, value) ∈ r.entries.toList) :
    r.group ≠ Digest.zero ∧ value.encoded = 0xc4 :: 0x20 :: r.group.bytes := by
  rw [Std.ExtTreeMap.mem_toList_iff_getElem?_eq_some, getElem?_entries, if_pos rfl] at h
  split_ifs at h with hzero
  cases h
  exact ⟨fun heq => hzero (Digest.isZero_iff.2 heq), by rw [Field.binary_bytes]⟩

/-- The encoding of a record has the canonical layout. -/
theorem Record.exists_isCanonical (hfit : r.FieldsFit limits) (hcount : r.entries.size < 2 ^ 32) :
    ∃ l : Layout, l.bytes = r.encode ∧ l.Fits limits ∧ l.IsCanonical := by
  -- the entries in their order, with canonical keys and with the values as they are
  obtain ⟨es, hpairs, hnames⟩ := exists_writtenEntries
    fun entry hentry => (hfit.of_mem_entries hentry).1
  have hlength : es.length = r.entries.size := by
    rw [← Std.ExtTreeMap.length_toList, ← hpairs, List.length_map]
  have hmem {e : WrittenEntry} (he : e ∈ es) : (e.key, e.value) ∈ r.entries.toList :=
    hpairs ▸ List.mem_map_of_mem (f := WrittenEntry.pair) he
  have hheader := (isShortest_mapHeader_iff (hlength ▸ hcount)).2 rfl
  refine ⟨⟨Canonical.mapHeader es.length, es, hheader.1⟩, ?_,
    fun e he => (hfit.of_mem_entries (hmem he)).2, hheader, fun e he => ?_, ?_, fun e he hkey => ?_⟩
  · change Canonical.mapHeader es.length ++ es.flatMap WrittenEntry.bytes = _
    rw [flatMap_bytes_of_names hnames, hpairs, hlength]
    rfl
  · exact (isShortest_string_iff (hfit.of_mem_entries (hmem he)).1).2 (hnames e he)
  · have hascending := r.entries.ordered_keys_toList
    rw [← hpairs, List.pairwise_map] at hascending
    exact hascending
  · exact ⟨r.group, eq_of_mem_entries (hkey ▸ hmem he)⟩

/-- The group in a canonical layout is written as it is encoded. -/
theorem Layout.IsCanonical.exists_value_eq (h : l.IsCanonical) {e : WrittenEntry}
    (he : e ∈ l.entries) (hkey : e.key = groupKey) :
    ∃ d : Digest, d ≠ Digest.zero ∧ e.value = Field.binary d.bytes := by
  obtain ⟨d, hzero, hencoded⟩ := h.group e he hkey
  exact ⟨d, hzero, (congrArg Field.mk hencoded).trans (Field.binary_bytes d).symm⟩

/-- A canonical layout is that of the encoding of the record that it holds. -/
theorem Layout.IsCanonical.encode_eq (h : l.IsCanonical) (hr : l.Holds r) : r.encode = l.bytes := by
  have hnames : ∀ e ∈ l.entries, e.name = Canonical.string e.key := fun e he =>
    (isShortest_string_iff e.isKey.length_lt).1 (h.names e he)
  have hheader := (isShortest_mapHeader_iff l.length_entries_lt).1 h.header
  have hascending : l.pairs.Pairwise fun a b => byteOrder a.1 b.1 = .lt :=
    List.pairwise_map.2 h.ascending
  have hentries : r.entries = .ofList l.pairs byteOrder := by
    rw [hr.eq]
    refine Record.entries_ofEntries fun value hvalue => ?_
    rw [getElem?_ofList_eq_some_iff hr.nodup] at hvalue
    obtain ⟨e, he, hkey, rfl⟩ := mem_pairs_iff.1 hvalue
    exact h.exists_value_eq he hkey
  have hlist : r.entries.toList = l.pairs := by
    rw [hentries, toList_ofList_of_ascending hascending]
  have hsize : r.entries.size = l.entries.length := by
    rw [← Std.ExtTreeMap.length_toList, hlist, Layout.pairs, List.length_map]
  unfold Record.encode encodeEntries Layout.bytes
  rw [hsize, hlist, hheader, flatMap_bytes_of_names hnames]
  rfl

/-! ## Without a group -/

/-- A canonical layout writes a group exactly if its record has one. -/
theorem Layout.IsCanonical.forall_key_ne_iff (h : l.IsCanonical) (hr : l.Holds r) :
    (∀ e ∈ l.entries, e.key ≠ groupKey) ↔ r.group = Digest.zero := by
  constructor
  · intro hkeys
    by_contra hzero
    obtain ⟨e, he, hkey, -⟩ := (hr.group_iff hzero).1 rfl
    exact hkeys e he hkey
  · intro hgroup e he hkey
    obtain ⟨d, hzero, hvalue⟩ := h.exists_value_eq he hkey
    have hd : e.value.digest? = some d := by rw [hvalue, Field.digest?_binary]
    exact hzero (((hr.group_iff hzero).2 ⟨e, he, hkey, hd⟩).symm.trans hgroup)

/-- Decoding, clearing the group and encoding again gives back exactly the inputs that are laid out
in the canonical way and have no entry for a group. -/
theorem Record.encode_withoutGroup_eq_iff {b : Bytes} (h : decode limits b = .ok r) :
    r.withoutGroup.encode = b ↔ ∃ l : Layout, l.bytes = b ∧ l.Fits limits ∧ l.IsCanonical ∧
      ∀ e ∈ l.entries, e.key ≠ groupKey := by
  constructor
  · rintro rfl
    obtain ⟨hfields, -, hcount⟩ := fits_of_decode h
    -- what is read back was written without a group
    have hgroup : r.withoutGroup = r :=
      ((hfields.withGroup Digest.zero).eq_of_decode_encode h).symm
    rw [hgroup] at h ⊢
    obtain ⟨l, hbytes, hfit, hcanonical⟩ := exists_isCanonical hfields hcount
    have hholds : l.Holds r := Layout.holds_of_decode hfit (hbytes ▸ h)
    exact ⟨l, hbytes, hfit, hcanonical,
      (hcanonical.forall_key_ne_iff hholds).2 (congrArg Record.group hgroup.symm)⟩
  · rintro ⟨l, rfl, hfit, hcanonical, hkeys⟩
    have hholds := Layout.holds_of_decode hfit h
    have hgroup : r.withoutGroup = r :=
      Record.ext rfl ((hcanonical.forall_key_ne_iff hholds).1 hkeys).symm
    rw [hgroup, hcanonical.encode_eq hholds]

/-! ## Fixed points -/

/-- Whatever decodes has one layout, and is the encoding of what it decodes to exactly if the layout
is canonical. -/
theorem Record.encode_eq_iff_isCanonical (limits : Limits) (b : Bytes) (r : Record)
    (h : decode limits b = .ok r) : (∃! l : Layout, l.bytes = b ∧ l.Fits limits) ∧
      ∀ l : Layout, l.bytes = b → l.Fits limits → (r.encode = b ↔ l.IsCanonical) := by
  constructor
  · obtain ⟨l, hbytes, hfit, -⟩ := Layout.exists_of_decode h
    refine ⟨l, ⟨hbytes, hfit⟩, ?_⟩
    rintro l' ⟨hbytes', hfit'⟩
    exact Layout.eq_of_bytes_eq hfit' hfit (hbytes'.trans hbytes.symm)
  · rintro l rfl hfit
    constructor
    · intro hencode
      -- the layout of the encoding is canonical, and there is no other of these bytes
      obtain ⟨hfields, -, hcount⟩ := fits_of_decode h
      obtain ⟨l', hbytes, hfit', hcanonical⟩ := exists_isCanonical hfields hcount
      rwa [Layout.eq_of_bytes_eq hfit hfit' (hencode.symm.trans hbytes.symm)]
    · intro hcanonical
      exact hcanonical.encode_eq (Layout.holds_of_decode hfit h)

/-- A stamped record in its canonical layout. -/
theorem Record.encode_eq_iff_isCanonical_stamped :
    let b : Bytes := [0x82, 0xa1, 0x61, 0x01, 0xa3, 0x67, 0x72, 0x70, 0xc4, 0x20] ++
      List.replicate 32 7
    ∃ r, decode {} b = .ok r ∧ r.encode = b ∧
      ∃ l : Layout, l.bytes = b ∧ l.Fits {} ∧ l.IsCanonical := by
  intro b
  have hdecode : decode {} b = .ok (oneField.withGroup ⟨List.replicate 32 7, rfl⟩) :=
    decode_groupedLayout
  obtain ⟨⟨l, ⟨hbytes, hfit⟩, -⟩, hcanonical⟩ := encode_eq_iff_isCanonical {} b _ hdecode
  exact ⟨_, hdecode, encode_eq_groupedLayout, l, hbytes, hfit,
    (hcanonical l hbytes hfit).1 encode_eq_groupedLayout⟩

theorem isCanonical_plainLayout : plainLayout.IsCanonical := by
  refine ⟨(isShortest_mapHeader_iff (by decide)).2 rfl, fun e he => ?_, List.pairwise_singleton _ _,
    fun e he hkey => ?_⟩
  · rw [List.mem_singleton.1 he]
    exact (isShortest_string_iff (by decide)).2 rfl
  · rw [List.mem_singleton.1 he] at hkey
    exact absurd hkey (by decide)

end AtomicGroups
