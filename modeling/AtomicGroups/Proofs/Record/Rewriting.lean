import Mathlib
import AtomicGroups.Proofs.Record.Acceptance
import AtomicGroups.Proofs.Record.Layout

/-!
# Rewriting layouts

A record is encoded with the canonical entries of any of its layouts
(`Layout.Holds.mem_canonical_iff`).  None of the changes in `Rewrites` does more to them than to
change their order (`Rewrites.perm`), so layouts that are rewritten into each other hold the same
record (`Rewrites.record_eq`).
-/

namespace AtomicGroups

open Wire

/-- The form in which an entry is encoded.  A group of zeros is not encoded at all. -/
def WrittenEntry.canonical? (e : WrittenEntry) : Option (String × Field) :=
  if e.key = groupKey then
    (e.value.digest?.filter fun d => !d.isZero).map fun d => (groupKey, Field.binary d.bytes)
  else some e.pair

namespace WrittenEntry

variable {e : WrittenEntry} {key : String} {value : Field}

theorem canonical?_of_ne (hkey : e.key ≠ groupKey) : e.canonical? = some e.pair :=
  if_neg hkey

theorem canonical?_of_eq (hkey : e.key = groupKey) : e.canonical? =
    (e.value.digest?.filter fun d => !d.isZero).map fun d => (groupKey, Field.binary d.bytes) :=
  if_pos hkey

theorem canonical?_eq_some_iff_of_ne (hkey : key ≠ groupKey) :
    e.canonical? = some (key, value) ↔ e.key = key ∧ e.value = value := by
  by_cases he : e.key = groupKey
  · rw [canonical?_of_eq he, Option.map_eq_some_iff]
    refine iff_of_false ?_ fun h => hkey (h.1 ▸ he)
    rintro ⟨d, -, heq⟩
    exact hkey (Prod.mk.inj heq).1.symm
  · rw [canonical?_of_ne he, Option.some_inj, pair, Prod.mk.injEq]

theorem canonical?_eq_some_groupKey_iff : e.canonical? = some (groupKey, value) ↔
    e.key = groupKey ∧ ∃ d : Digest, e.value.digest? = some d ∧ d ≠ Digest.zero ∧
      Field.binary d.bytes = value := by
  by_cases he : e.key = groupKey
  · rw [canonical?_of_eq he, Option.map_eq_some_iff]
    simp only [Option.filter_eq_some_iff, Bool.not_eq_true', ← Bool.not_eq_true, Digest.isZero_iff,
      Prod.mk.injEq, he, true_and, and_assoc, ne_eq]
  · rw [canonical?_of_ne he, Option.some_inj]
    exact iff_of_false (fun heq => he (Prod.mk.inj heq).1) fun h => he h.1

end WrittenEntry

/-! ## Layouts of one record -/

section

variable {limits : Limits} {l l' : Layout} {r r' : Record} {key : String} {value : Field}

namespace Layout

theorem Holds.group_iff (h : l.Holds r) {g : Digest} (hg : g ≠ Digest.zero) :
    r.group = g ↔ ∃ e ∈ l.entries, e.key = groupKey ∧ e.value.digest? = some g := by
  rw [h.eq]
  constructor
  · rintro rfl
    by_contra hnone
    refine hg (Record.group_ofEntries_ofList_of_not_mem h.nodup fun value hvalue => hnone ?_)
    obtain ⟨d, hd⟩ := Option.isSome_iff_exists.1 (h.digests value hvalue)
    obtain ⟨e, he, hkey, rfl⟩ := mem_pairs_iff.1 hvalue
    rw [Record.group_ofEntries_ofList h.nodup hvalue hd]
    exact ⟨e, he, hkey, hd⟩
  · rintro ⟨e, he, hkey, hd⟩
    exact Record.group_ofEntries_ofList h.nodup (mem_pairs_iff.2 ⟨e, he, hkey, rfl⟩) hd

/-- The canonical entries of a layout are those of the record that it holds. -/
theorem Holds.mem_canonical_iff (h : l.Holds r) :
    (key, value) ∈ l.entries.filterMap WrittenEntry.canonical? ↔ r.entries[key]? = some value := by
  rw [List.mem_filterMap, Record.getElem?_entries]
  by_cases hkey : key = groupKey
  -- under the group key nothing is encoded but a group that is not zero
  · subst hkey
    simp only [WrittenEntry.canonical?_eq_some_groupKey_iff, if_true]
    constructor
    · rintro ⟨e, he, hkey, d, hd, hzero, rfl⟩
      rw [(h.group_iff hzero).2 ⟨e, he, hkey, hd⟩, if_neg fun heq => hzero (Digest.isZero_iff.1 heq)]
    · split_ifs with hzero
      · exact False.elim
      · intro heq
        rw [Digest.isZero_iff] at hzero
        obtain ⟨e, he, hkey, hd⟩ := (h.group_iff hzero).1 rfl
        exact ⟨e, he, hkey, r.group, hd, hzero, Option.some.inj heq⟩
  · rw [if_neg hkey, h.eq, Record.field?_ofEntries_ofList h.nodup, mem_pairs_iff]
    simp only [WrittenEntry.canonical?_eq_some_iff_of_ne hkey]
    exact (and_iff_right hkey).symm

end Layout

end

/-! ## Rewritten layouts -/

section

variable {limits : Limits} {es es' : List WrittenEntry} {l l' : Layout} {r r' : Record}

theorem filterMap_replace {α β : Type} {f : α → Option β} {a a' : α} (h : f a = f a')
    (before after : List α) :
    (before ++ a :: after).filterMap f = (before ++ a' :: after).filterMap f := by
  rw [List.filterMap_append, List.filterMap_append, List.filterMap_cons, List.filterMap_cons, h]

/-- Whichever way entries are rewritten, the same is encoded. -/
theorem Rewrites.perm (h : Rewrites es es') :
    (es.filterMap WrittenEntry.canonical?).Perm (es'.filterMap WrittenEntry.canonical?) := by
  induction h with
  | order hperm => exact hperm.filterMap _
  | @keyWidth before after e e' hkey hvalue =>
    have heq : e.canonical? = e'.canonical? := by
      unfold WrittenEntry.canonical? WrittenEntry.pair
      rw [hkey, hvalue]
    rw [filterMap_replace heq before after]
  | @groupWidth before after e e' payload hkey hkey' _ hbinary hbinary' =>
    have hdigest : e.value.digest? = e'.value.digest? := by
      unfold Field.digest?
      rw [Field.payload?_eq_some_iff.2 hbinary, Field.payload?_eq_some_iff.2 hbinary']
    have heq : e.canonical? = e'.canonical? := by
      rw [WrittenEntry.canonical?_of_eq hkey, WrittenEntry.canonical?_of_eq hkey', hdigest]
    rw [filterMap_replace heq before after]
  | @zeroGroup before after e hkey hbinary =>
    have hnone : e.canonical? = none := by
      rw [WrittenEntry.canonical?_of_eq hkey, Field.digest?_eq_some_iff.2 hbinary]
      rfl
    rw [List.filterMap_append, List.filterMap_append, List.filterMap_cons_none hnone]
  | symm _ ih => exact ih.symm
  | trans _ _ ih ih' => exact ih.trans ih'

/-- Rewriting makes no value that is not well-formed. -/
theorem Rewrites.fits_iff {m h : Nat} (hes : Rewrites es es') :
    (∀ e ∈ es, IsValue m h e.value.encoded) ↔ ∀ e ∈ es', IsValue m h e.value.encoded := by
  induction hes with
  | order hperm => exact forall_congr' fun e => by rw [hperm.mem_iff]
  | keyWidth _ hvalue => simp only [List.forall_mem_append, List.forall_mem_cons, hvalue]
  | groupWidth _ _ _ hbinary hbinary' =>
    simp only [List.forall_mem_append, List.forall_mem_cons, hbinary.isValue,
      hbinary'.isValue]
  | zeroGroup _ hbinary =>
    simp only [List.forall_mem_append, List.forall_mem_cons, hbinary.isValue, true_and]
  | symm _ ih => exact ih.symm
  | trans _ _ ih ih' => exact ih.trans ih'

/-- Layouts that are rewritten into each other hold the same record. -/
theorem Rewrites.record_eq (h : Rewrites l.entries l'.entries) (hr : l.Holds r)
    (hr' : l'.Holds r') : r = r' := by
  have hentries : r.entries = r'.entries := by
    refine Std.ExtTreeMap.ext_getElem? fun key => Option.ext fun value => ?_
    rw [← hr.mem_canonical_iff, ← hr'.mem_canonical_iff, h.perm.mem_iff]
  rw [← Record.ofEntries_entries r, hentries, Record.ofEntries_entries]

theorem Rewrites.decode_eq (h : Rewrites l.entries l'.entries) (hfit : l.Fits limits)
    (hr : Record.decode limits l.bytes = .ok r) (hr' : Record.decode limits l'.bytes = .ok r') :
    r = r' :=
  h.record_eq (Layout.holds_of_decode hfit hr) (Layout.holds_of_decode (h.fits_iff.1 hfit) hr')

/-- If a rewritten layout holds a record at all and is not too long, it decodes to the same one. -/
theorem Rewrites.decode_eq_ok (h : Rewrites l.entries l'.entries) (hfit : l.Fits limits)
    (hr : Record.decode limits l.bytes = .ok r) (hholds : ∃ r', l'.Holds r')
    (hdepth : 0 < limits.maxDepth) (hmax : l'.entries.length ≤ limits.maxEntries) :
    Record.decode limits l'.bytes = .ok r := by
  obtain ⟨r', hr'⟩ := hholds
  have hdecode := hr'.decode_eq_ok (h.fits_iff.1 hfit) hdepth hmax
  rwa [h.decode_eq hfit hr hdecode]

end

/-! ## A record with one field, laid out in four ways -/

def plainEntry : WrittenEntry :=
  ⟨[0xa1, 0x61], "a", ⟨[0x01]⟩, @IsKey.mk 0xa1 (.inTag 1) [] "a" (by decide) ⟨rfl, rfl⟩⟩

def wideEntry : WrittenEntry :=
  ⟨[0xd9, 0x01, 0x61], "a", ⟨[0x01]⟩, @IsKey.mk 0xd9 (.wide 1) [0x01] "a" (by decide) ⟨rfl, rfl⟩⟩

def zeroGroupEntry : WrittenEntry :=
  ⟨[0xd9, 0x03, 0x67, 0x72, 0x70], groupKey, ⟨[0xc5, 0x00, 0x20] ++ List.replicate 32 0⟩,
    @IsKey.mk 0xd9 (.wide 1) [0x03] groupKey (by decide) ⟨rfl, rfl⟩⟩

def groupEntry : WrittenEntry :=
  ⟨[0xa3, 0x67, 0x72, 0x70], groupKey, ⟨[0xc4, 0x20] ++ List.replicate 32 7⟩,
    @IsKey.mk 0xa3 (.inTag 3) [] groupKey (by decide) ⟨rfl, rfl⟩⟩

def wideGroupEntry : WrittenEntry :=
  ⟨[0xa3, 0x67, 0x72, 0x70], groupKey, ⟨[0xc5, 0x00, 0x20] ++ List.replicate 32 7⟩,
    @IsKey.mk 0xa3 (.inTag 3) [] groupKey (by decide) ⟨rfl, rfl⟩⟩

/-- The canonical layout of the record with one field. -/
def plainLayout : Layout :=
  ⟨[0x81], [plainEntry], @IsHeader.mk _ 0x81 (.inTag 1) [] 1 (by decide) ⟨rfl, rfl⟩⟩

/-- A layout of it with wide headers and a group of zeros. -/
def wideLayout : Layout :=
  ⟨[0xde, 0x00, 0x02], [zeroGroupEntry, wideEntry],
    @IsHeader.mk _ 0xde (.wide 2) [0x00, 0x02] 2 (by decide) ⟨rfl, rfl⟩⟩

/-- The canonical layout of the record with a group. -/
def groupedLayout : Layout :=
  ⟨[0x82], [plainEntry, groupEntry], @IsHeader.mk _ 0x82 (.inTag 2) [] 2 (by decide) ⟨rfl, rfl⟩⟩

/-- A layout of it with a wide group in front of the field. -/
def reorderedLayout : Layout :=
  ⟨[0x82], [wideGroupEntry, plainEntry],
    @IsHeader.mk _ 0x82 (.inTag 2) [] 2 (by decide) ⟨rfl, rfl⟩⟩

theorem isBinary_zeroGroupEntry : IsBinary Digest.zero.bytes zeroGroupEntry.value.encoded :=
  @IsBinary.mk _ 0xc5 (.wide 2) [0x00, 0x20] (by decide) ⟨rfl, rfl⟩

theorem isBinary_groupEntry : IsBinary (List.replicate 32 7) groupEntry.value.encoded :=
  @IsBinary.mk _ 0xc4 (.wide 1) [0x20] (by decide) ⟨rfl, rfl⟩

theorem isBinary_wideGroupEntry : IsBinary (List.replicate 32 7) wideGroupEntry.value.encoded :=
  @IsBinary.mk _ 0xc5 (.wide 2) [0x00, 0x20] (by decide) ⟨rfl, rfl⟩

theorem rewrites_wideLayout : Rewrites plainLayout.entries wideLayout.entries :=
  .trans (@Rewrites.keyWidth [] [] plainEntry wideEntry rfl rfl)
    (@Rewrites.zeroGroup [] [wideEntry] zeroGroupEntry rfl isBinary_zeroGroupEntry)

theorem rewrites_reorderedLayout : Rewrites groupedLayout.entries reorderedLayout.entries :=
  .trans (.order (.swap groupEntry plainEntry []))
    (@Rewrites.groupWidth [] [plainEntry] groupEntry wideGroupEntry _ rfl rfl rfl
      isBinary_groupEntry isBinary_wideGroupEntry)

theorem fits_plainLayout (limits : Limits) : plainLayout.Fits limits := by
  intro e he
  rw [List.mem_singleton.1 he]
  exact .fixed (by decide)

theorem fits_groupedLayout (limits : Limits) : groupedLayout.Fits limits := by
  intro e he
  rcases List.mem_pair.1 he with rfl | rfl
  · exact .fixed (by decide)
  · exact isBinary_groupEntry.isValue

/-- A layout of a group and a field holds a record. -/
theorem Layout.exists_holds_of_pair {l : Layout} {e f : WrittenEntry} (d : Digest)
    (hentries : l.entries = [e, f]) (he : e.key = groupKey) (hf : f.key ≠ groupKey)
    (hd : IsBinary d.bytes e.value.encoded) : ∃ r, l.Holds r := by
  refine ⟨_, ?_, fun value hvalue => ?_, rfl⟩
  · simpa [pairs, hentries, WrittenEntry.pair, he] using hf.symm
  · obtain ⟨e', he', hkey, rfl⟩ := Layout.mem_pairs_iff.1 hvalue
    rw [hentries] at he'
    rcases List.mem_pair.1 he' with rfl | rfl
    · rw [Field.digest?_eq_some_iff.2 hd]
      rfl
    · exact absurd hkey hf

theorem decode_wideLayout : Record.decode {} wideLayout.bytes = .ok Record.oneField :=
  rewrites_wideLayout.decode_eq_ok (fits_plainLayout {})
    (Record.decode_oneField (by decide) (by decide))
    (Layout.exists_holds_of_pair Digest.zero rfl rfl (by decide) isBinary_zeroGroupEntry)
    (by decide) (by decide)

theorem encode_eq_groupedLayout :
    (Record.oneField.withGroup ⟨List.replicate 32 7, rfl⟩).encode = groupedLayout.bytes := by
  decide +kernel

theorem decode_groupedLayout : Record.decode {} groupedLayout.bytes =
    .ok (Record.oneField.withGroup ⟨List.replicate 32 7, rfl⟩) := by
  rw [← encode_eq_groupedLayout]
  exact Record.decode_encode_oneField_withGroup (by decide) (by decide) _

theorem decode_reorderedLayout : Record.decode {} reorderedLayout.bytes =
    .ok (Record.oneField.withGroup ⟨List.replicate 32 7, rfl⟩) :=
  rewrites_reorderedLayout.decode_eq_ok (fits_groupedLayout {}) decode_groupedLayout
    (Layout.exists_holds_of_pair ⟨List.replicate 32 7, rfl⟩ rfl rfl (by decide)
      isBinary_wideGroupEntry)
    (by decide) (by decide)

end AtomicGroups
