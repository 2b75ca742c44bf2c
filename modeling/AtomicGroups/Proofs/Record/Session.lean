import Mathlib
import AtomicGroups.Proofs.Record.RoundTrip
import AtomicGroups.Proofs.Wire.Shortest
import AtomicGroups.Record.Session

/-!
# What calls keep

Whatever the calls, the fields of a record are well-formed values (`Call.run_allSound`,
`allSound_recordsAfter`).  Such a record is written as a header that counts its entries and the
entries in the order of their keys (`isWrittenAs_entries`), so a group takes the place of no field.
-/

namespace AtomicGroups

open Wire

/-- Whether a value is one well-formed value, however deep and wide its containers are. -/
def Field.IsComplete (f : Field) : Prop :=
  ∃ maxEntries height, IsValue maxEntries height f.encoded

/-- Finitely many values stay within common bounds. -/
theorem Field.exists_isValue {values : List Field} (h : ∀ value ∈ values, value.IsComplete) :
    ∃ maxEntries height, ∀ value ∈ values, IsValue maxEntries height value.encoded := by
  induction values with
  | nil => exact ⟨0, 0, by simp⟩
  | cons value values ih =>
    obtain ⟨⟨e, d, hvalue⟩, hvalues⟩ := List.forall_mem_cons.1 h
    obtain ⟨e', d', ih⟩ := ih hvalues
    refine ⟨max e e', max d d', List.forall_mem_cons.2
      ⟨hvalue.mono (le_max_left _ _) (le_max_left _ _), fun value' hmem => ?_⟩⟩
    exact (ih value' hmem).mono (le_max_right _ _) (le_max_right _ _)

namespace Record

variable {r : Record} {records : Records} {place target : Nat} {key : String} {value : Field}

/-! ## Sound records -/

/-- Whether each field of a record is a well-formed value. -/
def IsSound (r : Record) : Prop := ∀ key value, r.field? key = some value → value.IsComplete

theorem isSound_empty : empty.IsSound := fun _ _ hfield => by cases hfield

theorem isSound_of_decode {limits : Limits} {b : Bytes} (h : decode limits b = .ok r) :
    r.IsSound :=
  fun key value hfield => ⟨_, _, (fits_of_decode h).1.values key value hfield⟩

theorem IsSound.withGroup (h : r.IsSound) (group : Digest) : (r.withGroup group).IsSound := h

theorem IsSound.insert (h : r.IsSound) (hvalue : value.IsComplete) :
    (r.insert key value).IsSound := by
  intro key' value' hfield
  rw [field?_insert] at hfield
  split_ifs at hfield
  · cases hfield
    exact hvalue
  · exact h key' value' hfield

/-! ## Calls -/

/-- Whether the record in each place is sound. -/
def AllSound (records : Records) : Prop := ∀ place, ∀ r ∈ records place, r.IsSound

/-- The values that sources give are well-formed if the records are sound. -/
theorem Source.isComplete {source : Source} (h : AllSound records)
    (hvalue : source.value? records = some value) : value.IsComplete := by
  cases source with
  | unsigned n =>
    cases hvalue
    exact ⟨0, 0, isValue_unsigned n⟩
  | string s hlength =>
    cases hvalue
    exact ⟨0, 0, (isKey_string hlength).isValue⟩
  | binary payload hlength =>
    cases hvalue
    exact ⟨0, 0, isValue_binary hlength⟩
  | field place key =>
    obtain ⟨r, hr, hfield⟩ := Option.bind_eq_some_iff.1 hvalue
    exact h place r hr key value hfield

theorem AllSound.update {record : Option Record} (h : AllSound records)
    (hrecord : ∀ r ∈ record, r.IsSound) : AllSound (Function.update records target record) := by
  intro place
  rw [Function.update_apply]
  split_ifs
  · exact hrecord
  · exact h place

theorem AllSound.map {f : Record → Record} (h : AllSound records)
    (hf : ∀ r, r.IsSound → (f r).IsSound) (place : Nat) :
    ∀ r ∈ (records place).map f, r.IsSound := by
  intro r hr
  obtain ⟨r, hplace, rfl⟩ := Option.mem_map.1 hr
  exact hf r (h place r hplace)

/-- No call makes a record that is not sound. -/
theorem Call.run_allSound (call : Call) (h : AllSound records) : AllSound (call.run records) := by
  cases call with
  | new target => exact h.update (by simpa using isSound_empty)
  | decode target limits bytes =>
    unfold run
    dsimp only
    split
    · next r hr => exact h.update (by simpa using isSound_of_decode hr)
    · exact h
  | clone place target => exact h.update (h place)
  | insert place target key source =>
    unfold run
    dsimp only
    split
    · next value hvalue =>
      exact h.update (h.map (fun r hr => hr.insert (source.isComplete h hvalue)) place)
    · exact h
  | withGroup place target group => exact h.update (h.map (fun r hr => hr.withGroup group) place)
  | withoutGroup place target =>
    exact h.update (h.map (fun r hr => hr.withGroup Digest.zero) place)

theorem AllSound.foldl_run (h : AllSound records) (calls : List Call) :
    AllSound (calls.foldl Call.run records) := by
  induction calls generalizing records with
  | nil => exact h
  | cons call later ih => exact ih (call.run_allSound h)

/-- After any calls, the record in each place is sound. -/
theorem allSound_recordsAfter (calls : List Call) : AllSound (recordsAfter calls) :=
  AllSound.foldl_run (fun _ _ hr => by cases hr) calls

/-! ## The form in which records are written -/

/-- Whether a record is written as a header and entries, of which there are as many as the header
says: the fields, each with its key in front of it, and the group if it is not zero. -/
structure IsWrittenAs (r : Record) (header : Bytes) (entries : List (String × Field)) : Prop where
  encode_eq : r.encode = header ++ entries.flatMap encodeEntry
  isHeader : IsHeader .map header entries.length
  length_eq : entries.length = r.size + r.isStamped.toNat
  ascending : (entries.map Prod.fst).Pairwise fun a b => Bytes.ofString a < Bytes.ofString b
  mem_iff : ∀ key value, (key, value) ∈ entries ↔ r.field? key = some value ∨
    r.isStamped = true ∧ key = groupKey ∧ value = Field.binary r.group.bytes

theorem isWrittenAs_entries (hcount : r.size + r.isStamped.toNat < 2 ^ 32) :
    r.IsWrittenAs (Canonical.mapHeader r.entries.size) r.entries.toList := by
  have hlength : r.entries.toList.length = r.size + r.isStamped.toNat := by
    rw [Std.ExtTreeMap.length_toList, size_entries]
  refine ⟨rfl, ?_, hlength, pairwise_keys_toList _, fun key value => mem_entries_iff⟩
  rw [← Std.ExtTreeMap.length_toList, hlength]
  exact ((isShortest_mapHeader_iff hcount).2 rfl).1

/-- If no key is too long for a header, then the entries are entries of the grammar. -/
theorem IsSound.exists_areEntries (h : r.IsSound)
    (hkeys : ∀ key ∈ r.fields, (Bytes.ofString key).length < 2 ^ 32) :
    ∃ maxEntries height, AreEntries maxEntries height r.entries.toList
      (r.entries.toList.flatMap encodeEntry) := by
  have hvalues : ∀ value ∈ r.fields.toList.map Prod.snd, value.IsComplete := by
    intro value hvalue
    obtain ⟨⟨key, value⟩, hentry, rfl⟩ := List.mem_map.1 hvalue
    exact h key value (Std.ExtTreeMap.mem_toList_iff_getElem?_eq_some.1 hentry)
  obtain ⟨maxEntries, height, hbound⟩ := Field.exists_isValue hvalues
  have hfit : r.FieldsFit ⟨height + 1, maxEntries⟩ :=
    ⟨Nat.succ_pos _, hkeys, fun key value hfield => hbound value (List.mem_map.2
      ⟨(key, value), Std.ExtTreeMap.mem_toList_iff_getElem?_eq_some.2 hfield, rfl⟩)⟩
  exact ⟨_, _, hfit.areEntries⟩

/-- Whatever calls made a record, its keys are distinct, ascend and are not the key of the group,
its values are well-formed, and it is written with all its entries, in order and counted. -/
theorem sound_of_session (calls : List Call) (place : Nat) (r : Record)
    (h : recordsAfter calls place = some r) :
    (r.fields.toList.map Prod.fst).Nodup ∧
    (r.fields.toList.map Prod.fst).Pairwise (fun a b => Bytes.ofString a < Bytes.ofString b) ∧
    groupKey ∉ r.fields.toList.map Prod.fst ∧
    (∀ entry ∈ r.fields.toList, ∃ maxEntries height,
      IsValue maxEntries height entry.2.encoded) ∧
    (r.size + r.isStamped.toNat < 2 ^ 32 → ∃ header entries, r.IsWrittenAs header entries ∧
      ((∀ key ∈ r.fields, (Bytes.ofString key).length < 2 ^ 32) → ∃ maxEntries height,
        AreEntries maxEntries height entries (entries.flatMap encodeEntry))) := by
  have hsound := allSound_recordsAfter calls place r h
  refine ⟨nodup_keys_toList _, pairwise_keys_toList _, fun hmem => ?_, fun entry hentry => ?_,
    fun hcount => ⟨_, _, isWrittenAs_entries hcount, hsound.exists_areEntries⟩⟩
  · obtain ⟨⟨key, value⟩, hentry, rfl⟩ := List.mem_map.1 hmem
    have hfield := Std.ExtTreeMap.mem_toList_iff_getElem?_eq_some.1 hentry
    rw [Std.ExtTreeMap.getElem?_eq_none r.groupKey_not_mem] at hfield
    cases hfield
  · exact hsound entry.1 entry.2 (Std.ExtTreeMap.mem_toList_iff_getElem?_eq_some.1 hentry)

/-- A field of a decoded record is set in a new one, under another key, with a text and a group. -/
theorem sound_of_session_copied :
    let calls : List Call := [.decode 0 {} [0x81, 0xa1, 0x61, 0x01], .new 1,
      .insert 1 1 "b" (.field 0 "a"), .insert 1 1 "a" (.string "x" (by decide)),
      .withGroup 1 2 ⟨List.replicate 32 7, rfl⟩]
    ∃ r, recordsAfter calls 2 = some r ∧ r.field? "b" = some ⟨[0x01]⟩ ∧
      r.size + r.isStamped.toNat = 3 ∧ ∃ header entries, r.IsWrittenAs header entries ∧
        ∃ maxEntries height, AreEntries maxEntries height entries (entries.flatMap encodeEntry) := by
  intro calls
  let r := ((empty.insert "b" ⟨[0x01]⟩).insert "a" (Field.string "x")).withGroup
    ⟨List.replicate 32 7, rfl⟩
  have hrun : recordsAfter calls 2 = some r := by
    unfold calls recordsAfter
    rw [List.foldl_cons, Call.run, decode_oneField (by decide) (by decide)]
    rfl
  have hfit : r.FieldsFit {} := by
    refine FieldsFit.withGroup (.insert (.insert (fieldsFit_empty (by decide)) ?_ ?_) ?_ ?_) _
    · decide
    · exact .fixed (by decide)
    · decide
    · exact (isKey_string (by decide)).isValue
  obtain ⟨-, -, -, -, hwritten⟩ := sound_of_session calls 2 r hrun
  obtain ⟨header, entries, hentries, hgrammar⟩ := hwritten (by decide)
  exact ⟨r, hrun, by decide, by decide, header, entries, hentries, hgrammar hfit.keys⟩

end Record

end AtomicGroups
