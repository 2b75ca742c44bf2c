import Mathlib
import AtomicGroups.Proofs.Record.Decoding
import AtomicGroups.Record.Edits

/-!
# What edits come to

An edit gives a value for a key or leaves the one that was there, and likewise for the group
(`Edit.field?_run`, `Edit.group_run`).  So after any edits each field has the last value that was
given for it (`field?_foldl_run`), and the order of all other edits is forgotten.
-/

namespace AtomicGroups.Record

open Wire

variable {key : String} {r : Record} {edits edits' : List Edit}

/-- The last result is that of the later elements, or else of the first one. -/
theorem getLast?_filterMap_cons {α β : Type} (f : α → Option β) (a : α) (l : List α) :
    ((a :: l).filterMap f).getLast? = (l.filterMap f).getLast?.or (f a) := by
  rw [List.getLast?_filterMap, List.getLast?_filterMap, List.reverse_cons, List.findSome?_append,
    List.findSome?_singleton]

/-! ## One edit -/

theorem group_insert (r : Record) (key : String) (value : Field) : (r.insert key value).group =
    (if key = groupKey then value.digest? else none).getD r.group := by
  unfold insert
  split_ifs
  · cases value.digest? <;> rfl
  · rfl

/-- After an edit, a field has the value that the edit gives for its key, or else the one before. -/
theorem Edit.field?_run (e : Edit) (hkey : key ≠ groupKey) :
    (e.run r).field? key = (e.value? key).or (r.field? key) := by
  have hinsert (key' : String) (value : Field) : (r.insert key' value).field? key =
      (if key' = key then some value else none).or (r.field? key) := by
    rw [field?_insert]
    by_cases heq : key' = key
    · rw [if_pos ⟨heq.symm, heq ▸ hkey⟩, if_pos heq, Option.some_or]
    · rw [if_neg fun h => heq h.1.symm, if_neg heq, Option.none_or]
  cases e with
  | insert key' value => exact hinsert key' value
  | exchange key' value => exact hinsert key' value
  | withGroup group => exact Option.none_or.symm

/-- An edit that sets no group leaves the one that was there. -/
theorem Edit.group_run (e : Edit) : (e.run r).group = e.group?.getD r.group := by
  cases e with
  | insert key value => exact group_insert r key value
  | exchange key value => exact group_insert r key value
  | withGroup group => rfl

/-- Under the group key, binaries of 32 bytes set a group, whatever the width of their header. -/
theorem Edit.group?_eq_some_iff {e : Edit} {g : Digest} : e.group? = some g ↔ e = .withGroup g ∨
    ∃ value, (e = .insert groupKey value ∨ e = .exchange groupKey value) ∧
      IsBinary g.bytes value.encoded := by
  have hdigest (key : String) (value : Field) :
      (if key = groupKey then value.digest? else none) = some g ↔
        key = groupKey ∧ IsBinary g.bytes value.encoded := by
    rw [← Field.digest?_eq_some_iff]
    split_ifs with hkey <;> simp [hkey]
  cases e with
  | insert key value =>
    rw [group?, hdigest]
    simp [and_assoc]
  | exchange key value =>
    rw [group?, hdigest]
    simp [and_assoc]
  | withGroup group => simp [group?]

/-! ## Any edits -/

theorem field?_foldl_run (r : Record) (edits : List Edit) (hkey : key ≠ groupKey) :
    (edits.foldl Edit.run r).field? key = (lastValue? key edits).or (r.field? key) := by
  unfold lastValue?
  induction edits generalizing r with
  | nil => rfl
  | cons e later ih =>
    rw [List.foldl_cons, ih, e.field?_run hkey, getLast?_filterMap_cons, Option.or_assoc]

theorem group_foldl_run (r : Record) (edits : List Edit) : (edits.foldl Edit.run r).group =
    (edits.filterMap Edit.group?).getLast?.getD r.group := by
  induction edits generalizing r with
  | nil => rfl
  | cons e later ih =>
    rw [List.foldl_cons, ih, e.group_run, getLast?_filterMap_cons]
    cases (later.filterMap Edit.group?).getLast? <;> rfl

/-- Each field of a record that was built has the last value that was given for it. -/
theorem field?_build (edits : List Edit) (hkey : key ≠ groupKey) :
    (build edits).field? key = lastValue? key edits :=
  (field?_foldl_run empty edits hkey).trans (Option.or_none ..)

theorem group_build (edits : List Edit) : (build edits).group = lastGroup edits :=
  group_foldl_run empty edits

/-- A record is determined by its fields and its group. -/
theorem eq_of_field?_eq {s : Record} (hfields : ∀ key ≠ groupKey, r.field? key = s.field? key)
    (hgroup : r.group = s.group) : r = s := by
  refine Record.ext (Std.ExtTreeMap.ext_getElem? fun key => ?_) hgroup
  by_cases hkey : key = groupKey
  · rw [hkey, Std.ExtTreeMap.getElem?_eq_none r.groupKey_not_mem,
      Std.ExtTreeMap.getElem?_eq_none s.groupKey_not_mem]
  · exact hfields key hkey

theorem agree_iff_build_eq : Agree edits edits' ↔ build edits = build edits' := by
  constructor
  · rintro ⟨hvalues, hgroup⟩
    refine eq_of_field?_eq (fun key hkey => ?_) ?_
    · rw [field?_build edits hkey, field?_build edits' hkey, hvalues key hkey]
    · rw [group_build, group_build, hgroup]
  · intro h
    refine ⟨fun key hkey => ?_, ?_⟩
    · rw [← field?_build edits hkey, h, field?_build edits' hkey]
    · rw [← group_build, h, group_build]

/-- Edits build the same record, which is written in the same way, exactly if they agree on the last
value for each key and on the last group.  A group is set as such, or as a binary of 32 bytes under
its key. -/
theorem build_eq_iff (edits edits' : List Edit) :
    (Agree edits edits' ↔ build edits = build edits') ∧
    (Agree edits edits' → (build edits).encode = (build edits').encode) ∧
    ∀ (e : Edit) (g : Digest), e.group? = some g ↔ e = .withGroup g ∨
      ∃ value, (e = .insert groupKey value ∨ e = .exchange groupKey value) ∧
        IsBinary g.bytes value.encoded :=
  ⟨agree_iff_build_eq, fun h => congrArg encode (agree_iff_build_eq.1 h),
    fun _ _ => Edit.group?_eq_some_iff⟩

/-- The group is set as such, or under its key with a header that is wider than necessary; fields
are set twice, and a value that is no group is dropped. -/
theorem build_eq_overwritten :
    let g : Digest := ⟨List.replicate 32 7, rfl⟩
    let edits : List Edit := [.insert "b" ⟨[0x03]⟩, .insert "a" ⟨[0x02]⟩, .withGroup g,
      .exchange "a" ⟨[0x01]⟩]
    let edits' : List Edit := [.insert groupKey ⟨0xc5 :: 0x00 :: 0x20 :: g.bytes⟩,
      .insert groupKey ⟨[0x01]⟩, .insert "a" ⟨[0x01]⟩, .exchange "b" ⟨[0x03]⟩]
    build edits = build edits' ∧ (build edits).encode = (build edits').encode ∧
      (build edits').group = g ∧ (build edits).field? "a" = some ⟨[0x01]⟩ := by
  intro g edits edits'
  have hagree : Agree edits edits' := by
    refine ⟨fun key hkey => ?_, by decide⟩
    by_cases ha : "a" = key
    · subst ha
      decide
    by_cases hb : "b" = key
    · subst hb
      decide
    · simp [edits, edits', lastValue?, Edit.value?, ha, hb, hkey.symm]
  obtain ⟨hbuild, hencode, -⟩ := build_eq_iff edits edits'
  exact ⟨hbuild.1 hagree, hencode hagree, by decide, by decide⟩

end AtomicGroups.Record
