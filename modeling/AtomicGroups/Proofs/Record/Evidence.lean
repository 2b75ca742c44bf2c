import Mathlib
import AtomicGroups.Proofs.Record.Extension
import AtomicGroups.Proofs.Wire.Faults

/-!
# Errors and what they point at

Whatever the decoder refuses some bytes for is there to be seen in them: its error is a true
statement about the bytes at its offset and in front of it (`Record.evidence_of_decode`).

An entry fails for its key or its value, or once both have been read (`EntryFault`, `FieldFault`),
and in front of the entry that fails stand those that did not.
-/

namespace AtomicGroups

open Wire Wire.Reader

variable {limits : Limits} {level offset : Nat} {b before name rest : Bytes} {key : String}
  {entries : List (String × Field)} {e : DecodeError}

/-! ## Failures of entries -/

/-- What is wrong with an entry whose key has been read, behind the entries found so far. -/
inductive FieldFault (limits : Limits) (found : FieldMap) (key : String) (offset : Nat) :
    Bytes → DecodeError → Prop
  | value {rest : Bytes} {e : DecodeError} : ValueFault limits 1 offset rest e →
    FieldFault limits found key offset rest e
  | duplicate {value later : Bytes} :
    IsValue limits.maxEntries (limits.maxDepth - 1) value → key ∈ found →
    FieldFault limits found key offset (value ++ later) (.duplicateKey key)
  | group {value later : Bytes} : IsValue limits.maxEntries (limits.maxDepth - 1) value →
    key = groupKey → (Field.mk value).digest? = none →
    FieldFault limits found key offset (value ++ later) (.invalidGroupField offset value)

/-- What is wrong with an entry at an offset. -/
inductive EntryFault (limits : Limits) (found : FieldMap) (offset : Nat) :
    Bytes → DecodeError → Prop
  | key {rest : Bytes} {e : DecodeError} : KeyFault offset rest e →
    EntryFault limits found offset rest e
  | field {name later : Bytes} {key : String} {e : DecodeError} : IsKey name key →
    FieldFault limits found key (offset + name.length) later e →
    EntryFault limits found offset (name ++ later) e

/-- What is wrong with some entry of several: the ones in front of it are complete. -/
def EntriesFault (limits : Limits) (n : Nat) (found : FieldMap) (offset : Nat) (rest : Bytes)
    (e : DecodeError) : Prop :=
  ∃ entries body later, entries.length < n ∧ rest = body ++ later ∧
    AreEntries limits.maxEntries (limits.maxDepth - 1) entries body ∧
    EntryFault limits (found.insertMany entries) (offset + body.length) later e

variable (limits)

/-- That a key was found before is noticed first, and that a value is no group second. -/
theorem fails_readEntry (found : FieldMap) :
    Fails (readEntry limits found) (EntryFault limits found) := by
  refine (fails_key.bind reads_key (H := FieldFault limits found) fun key =>
    (fails_offset_bind (F := fun start offset rest e => offset = start →
      FieldFault limits found key start rest e) fun start => ?_).mono fun _ _ _ h => h rfl).mono
      fun offset rest e h => ?_
  · refine ((fails_value limits 1).bind (reads_value limits 1) (H := fun value _ _ e =>
      key ∈ found ∧ e = .duplicateKey key ∨
        key = groupKey ∧ (Field.mk value).digest? = none ∧ e = .invalidGroupField start value)
      fun value => ?_).mono fun offset rest e h => ?_
    · dsimp only
      by_cases hmem : key ∈ found
      · rw [if_pos hmem]
        exact Fails.mono (fails_throw _) fun _ _ _ he => .inl ⟨hmem, he⟩
      rw [if_neg hmem]
      by_cases hgroup : key = groupKey ∧ (Field.mk value).digest? = none
      · rw [if_pos hgroup]
        exact Fails.mono (fails_throw _) fun _ _ _ he => .inr ⟨hgroup.1, hgroup.2, he⟩
      · rw [if_neg hgroup]
        exact (fails_pure _).mono fun _ _ _ => False.elim
    · rintro rfl
      rcases h with h | ⟨value, later, _, rfl, ⟨rfl, hv⟩, ⟨hmem, rfl⟩ | ⟨hkey, hd, rfl⟩⟩
      · exact .value h
      · exact .duplicate hv hmem
      · exact .group hv hkey hd
  · rcases h with h | ⟨name, later, key, rfl, hk, h⟩
    · exact .key h
    · exact .field hk h

theorem fails_readEntries (n : Nat) (found : FieldMap) :
    Fails (readEntries limits n found) (EntriesFault limits n found) := by
  induction n generalizing found with
  | zero => exact (fails_pure found).mono fun _ _ _ => False.elim
  | succ n ih =>
    refine ((fails_readEntry limits found).bind (reads_readEntry limits found) ih).mono
      fun offset rest e h => ?_
    rcases h with h | ⟨-, later, -, rfl, ⟨key, value, name, rfl, hk, hv, -, -, rfl⟩, entries, body,
      later, hn, rfl, hb, h⟩
    · exact ⟨[], [], rest, Nat.succ_pos n, rfl, .nil, by rwa [Std.ExtTreeMap.insertMany_nil]⟩
    · refine ⟨(key, value) :: entries, name ++ value.encoded ++ body, later, Nat.succ_lt_succ hn,
        (List.append_assoc ..).symm, .cons hk hv hb, ?_⟩
      rwa [Std.ExtTreeMap.insertMany_cons, List.length_append, ← Nat.add_assoc]

/-- Up to its last entry, a record fails for its header or for an entry behind it. -/
theorem fails_readBody : Fails (readBody limits) fun offset rest e =>
    ContainerFault limits 0 offset rest e ∨
    (∃ tag later, rest = tag :: later ∧ (∀ k, ¬ TypeByte tag (.map k)) ∧ e = .notAMap tag) ∨
    ∃ header n later, rest = header ++ later ∧ IsHeader .map header n ∧ n ≤ limits.maxEntries ∧
      0 < limits.maxDepth ∧ EntriesFault limits n ∅ (offset + header.length) later e := by
  refine ((fails_mapHeader limits).bind (reads_mapHeader limits)
    fun n => fails_readEntries limits n ∅).mono fun offset rest e h => ?_
  rcases h with (h | h) | ⟨-, later, n, rfl, ⟨⟨tag, k, count, rfl, ht, hk⟩, hdepth, hn, -⟩, h⟩
  · exact .inl h
  · exact .inr (.inl h)
  · have hheader : IsHeader .map (tag :: count) n :=
      .mk (typeByte_iff.2 ⟨ht, Format.noConfusion⟩) hk
    exact .inr (.inr ⟨tag :: count, n, later, rfl, hheader, hn, hdepth, h⟩)

/-! ## From failures to what is seen -/

variable {limits}

/-- If bytes are missing, then no record has the input and fewer bytes behind it. -/
theorem Wire.IsShort.evidence (h : IsShort offset rest e) (hb : b = before ++ rest)
    (ho : offset = before.length) (hdec : Record.decode limits b = .error e) :
    Evidence limits b e := by
  obtain ⟨n, needed, hn, hpos, rfl⟩ := h
  refine .endOfInput ?_ hpos fun later entries hrecord => ?_
  · rw [hb, List.length_append]
    omega
  · by_contra hlt
    have hextended := Record.decode_extended limits b later
    rw [hdec] at hextended
    have hok := (Record.decode_eq_ok_iff limits).2 ⟨entries, hrecord, rfl⟩
    rw [hextended.of_lt (Nat.lt_of_not_le hlt)] at hok
    cases hok

theorem Wire.ContainerFault.evidence (h : ContainerFault limits level offset rest e)
    (hb : b = before ++ rest) (ho : offset = before.length)
    (hstart : IsValueStart limits level before) (hlevel : level ≤ limits.maxDepth)
    (hdec : Record.decode limits b = .error e) : Evidence limits b e := by
  cases h with
  | short h => exact h.evidence hb ho hdec
  | depth hheader hdepth =>
    rw [Nat.le_antisymm hlevel hdepth] at hstart
    rw [ho]
    exact .depthLimitExceeded (by rw [hb, List.append_assoc]) hstart hheader
  | length hheader hdepth hlength =>
    rw [ho]
    exact .containerTooLarge (by rw [hb, List.append_assoc]) hstart hdepth hheader hlength

/-- As deep as the header at fault lies, so many containers are open in front of it. -/
theorem Wire.ValueFault.evidence (h : ValueFault limits 1 offset rest e)
    (hb : b = before ++ name ++ rest) (ho : offset = (before ++ name).length)
    (hentry : IsEntryStart limits entries before) (hk : IsKey name key)
    (hpos : 0 < limits.maxDepth) (hdec : Record.decode limits b = .error e) :
    Evidence limits b e := by
  obtain ⟨depth, inner, later, rfl, hinside, hfault⟩ := h
  have hdepth := hinside.depth_le
  have hstart : IsValueStart limits (1 + depth) (before ++ name ++ inner) :=
    Nat.add_comm depth 1 ▸ .inside hentry hk hinside
  rw [← List.append_assoc] at hb
  have hlength : offset + inner.length = (before ++ name ++ inner).length := by
    rw [ho, ← List.length_append]
  cases hfault with
  | container h => exact h.evidence hb hlength hstart (by omega) hdec
  | reserved =>
    rw [hlength]
    exact .reservedType hb (Nat.add_comm 1 depth ▸ hstart)

theorem Wire.KeyFault.evidence (h : KeyFault offset rest e) (hb : b = before ++ rest)
    (ho : offset = before.length) (hentry : IsEntryStart limits entries before)
    (hdec : Record.decode limits b = .error e) : Evidence limits b e := by
  cases h with
  | short h => exact h.evidence hb ho hdec
  | nonString htag =>
    rw [ho]
    exact .nonStringKey hb hentry htag
  | invalid htag hk hinvalid =>
    rw [ho]
    exact .invalidKey (by rw [hb, List.append_assoc]) hentry htag hk hinvalid

theorem FieldFault.evidence (h : FieldFault limits (.ofList entries byteOrder) key offset rest e)
    (hb : b = before ++ name ++ rest) (ho : offset = before.length + name.length)
    (hentry : IsEntryStart limits entries before) (hk : IsKey name key)
    (hpos : 0 < limits.maxDepth) (hdec : Record.decode limits b = .error e) :
    Evidence limits b e := by
  cases h with
  | value h => exact h.evidence hb (by rw [ho, List.length_append]) hentry hk hpos hdec
  | duplicate hv hmem =>
    refine .duplicateKey (by rw [hb, ← List.append_assoc]) hentry hk hv ?_
    simpa using Std.ExtTreeMap.mem_ofList.1 hmem
  | group hv hkey hd =>
    rw [hkey] at hk
    rw [ho]
    refine .invalidGroupField (by rw [hb, ← List.append_assoc]) hentry hk hv
      fun payload hbinary hlength => ?_
    have hsome := (Field.isSome_digest?_iff (f := ⟨_⟩)).2 ⟨payload, hlength, hbinary⟩
    rw [hd] at hsome
    cases hsome

theorem EntryFault.evidence (h : EntryFault limits (.ofList entries byteOrder) offset rest e)
    (hb : b = before ++ rest) (ho : offset = before.length)
    (hentry : IsEntryStart limits entries before) (hpos : 0 < limits.maxDepth)
    (hdec : Record.decode limits b = .error e) : Evidence limits b e := by
  cases h with
  | key h => exact h.evidence hb ho hentry hdec
  | field hk h =>
    exact h.evidence (by rw [hb, List.append_assoc]) (by rw [ho]) hentry hk hpos hdec

namespace Record

/-- What the decoder refuses bytes for is to be seen in them, at the offset that its error names:
bytes that are missing, a first byte that starts no map, a key that is no text or no string or that
another entry has, a byte that starts no value, a container too deep or too large, a group that is
none, or bytes behind the record. -/
theorem evidence_of_decode (limits : Limits) (b : Bytes) (e : DecodeError)
    (h : decode limits b = .error e) : Evidence limits b e := by
  cases hread : readBody limits (Cursor.start b) with
  | ok found d =>
    have hdecode := decode_of_readBody_eq_ok hread
    obtain ⟨before, hb, rfl, entries, hrecord, -⟩ := (reads_readBody limits _ _ _).1 hread
    rw [h] at hdecode
    split_ifs at hdecode with hend
    cases hdecode
    rw [Cursor.remaining_eq] at hend ⊢
    change Evidence limits b (.trailingBytes (0 + before.length) _)
    rw [Nat.zero_add]
    exact .trailingBytes hb hrecord (List.ne_nil_of_length_pos (Nat.pos_of_ne_zero hend))
  | error e' d =>
    have hdecode := decode_of_readBody_eq_error hread
    rw [h] at hdecode
    cases hdecode
    rcases fails_readBody limits _ _ _ hread with hfault | ⟨tag, later, hb, htag, rfl⟩ |
      ⟨header, n, later, hb, hheader, hn, hpos, entries, body, later, hlt, rfl, hbody, hfault⟩
    · exact hfault.evidence (List.nil_append b).symm rfl .record (Nat.zero_le _) h
    · exact .notAMap hb htag
    · have hentry : IsEntryStart limits entries (header ++ body) :=
        .mk hheader hn (Nat.sub_add_cancel hpos) hlt hbody
      rw [← Std.ExtTreeMap.ofList_eq_insertMany_empty] at hfault
      refine hfault.evidence (hb.trans (List.append_assoc ..).symm) ?_ hentry hpos h
      change 0 + header.length + body.length = _
      rw [Nat.zero_add, List.length_append]

/-- An array in an array in a record, where two containers may be open: in front of the second array
they are. -/
theorem evidence_of_decode_nested :
    let limits : Limits := ⟨2, 65536⟩
    let b : Bytes := [0x81, 0xa1, 0x61, 0x92, 0x01, 0x91, 0x05]
    decode limits b = .error (.depthLimitExceeded 5 2) ∧
      Evidence limits b (.depthLimitExceeded 5 2) ∧ IsValueStart limits 2 (b.take 5) := by
  intro limits b
  have herror : decode limits b = .error (.depthLimitExceeded 5 2) := by cbv
  have hevidence := evidence_of_decode limits b _ herror
  refine ⟨herror, hevidence, ?_⟩
  generalize he : DecodeError.depthLimitExceeded 5 2 = e at hevidence
  cases hevidence with
  | @depthLimitExceeded before header later _ _ hb hstart _ =>
    injection he with hlength
    rw [hb, List.append_assoc, hlength, List.take_left]
    exact hstart
  | _ => cases he

end Record

end AtomicGroups
