import Mathlib
import AtomicGroups.Proofs.Record.Extension
import AtomicGroups.Proofs.Wire.Canonical
import AtomicGroups.Proofs.Wire.Faults
import AtomicGroups.Proofs.Wire.Spans

/-!
# Binaries and groups

A payload is looked up in the bytes of a value without reading them as a value.  It is found exactly
if they are read as a value, to their end, and begin as a binary does
(`Field.payload?_eq_some_iff_value`).  The decoder looks for a payload of 32 bytes in what it reads
under the key of the group, once it has seen that the key is new (`Record.ReadsField`).
-/

namespace AtomicGroups

open Wire Wire.Reader

/-! ## Payloads -/

/-- The type bytes of binaries, each with the number of bytes that hold the length. -/
def binaryTags : List (UInt8 × Nat) := [(0xc4, 1), (0xc5, 2), (0xc6, 4)]

theorem typeByte_binary_iff_mem {tag : UInt8} {k : Count} :
    TypeByte tag (.binary k) ↔ ∃ width, (tag, width) ∈ binaryTags ∧ k = .wide width := by
  rw [typeByte_binary_iff]
  constructor
  · rintro (⟨rfl, rfl⟩ | ⟨rfl, rfl⟩ | ⟨rfl, rfl⟩) <;> exact ⟨_, by simp [binaryTags], rfl⟩
  · rintro ⟨width, hmem, rfl⟩
    simpa [binaryTags] using hmem

theorem Wire.IsBinary.length_lt {payload b : Bytes} (h : IsBinary payload b) :
    payload.length < b.length := by
  obtain ⟨-, -⟩ := h
  rw [List.length_cons, List.length_append]
  omega

namespace Field

/-- A payload is found exactly in the binaries that are read to their end as one value, at whatever
level and under whatever limits; and it is what stands behind the length. -/
theorem payload?_eq_some_iff_value (limits : Limits) (level : Nat) {raw payload : Bytes} :
    (Field.mk raw).payload? = some payload ↔ ∃ tag width rest, (tag, width) ∈ binaryTags ∧
      raw = tag :: rest ∧ payload = rest.drop width ∧
      Reader.value limits level (Cursor.start raw) =
        .ok raw ((Cursor.start raw).advance raw.length) := by
  rw [payload?_eq_some_iff]
  constructor
  · intro h
    have hvalue : Reader.value limits level (Cursor.start raw) =
        .ok raw ((Cursor.start raw).advance raw.length) :=
      h.isValue.value_eq_ok (List.append_nil raw).symm
    obtain ⟨ht, hk⟩ := h
    obtain ⟨width, hmem, rfl⟩ := typeByte_binary_iff_mem.1 ht
    obtain ⟨rfl, -⟩ := hk
    exact ⟨_, _, _, hmem, rfl, List.drop_left.symm, hvalue⟩
  · rintro ⟨tag, width, rest, hmem, rfl, rfl, hvalue⟩
    have hv := isValue_of_value_eq_ok hvalue List.drop_length
    have htag : TypeByte tag (.binary (.wide width)) :=
      typeByte_binary_iff_mem.2 ⟨width, hmem, rfl⟩
    obtain ⟨_, b, items, body, heq, ha, hbody⟩ := isValue_iff.1 hv
    obtain ⟨rfl, rfl⟩ := List.cons.inj heq
    rw [htag.ofByte_eq] at ha
    obtain ⟨count, payload, rfl, hk, rfl⟩ := ha
    cases hbody
    have hdrop : (count ++ payload ++ []).drop width = payload := by
      rw [List.append_nil, List.drop_left' hk.1]
    rw [hdrop, List.append_nil]
    exact .mk htag hk

end Field

/-! ## Groups -/

/-- Whether an error says that what is read as a group is none. -/
def DecodeError.IsGroupFault : DecodeError → Prop
  | .invalidGroupField _ _ => True
  | _ => False

section

variable {limits : Limits} {found found' : FieldMap} {key : String} {span rest b : Bytes}
  {c d c₁ c₂ : Cursor} {e : DecodeError} {n k offset level : Nat}

theorem Wire.IsShort.not_isGroupFault (h : IsShort offset rest e) : ¬ e.IsGroupFault := by
  obtain ⟨-, -, -, -, rfl⟩ := h
  exact id

theorem Wire.KeyFault.not_isGroupFault (h : KeyFault offset rest e) : ¬ e.IsGroupFault := by
  cases h with
  | short h => exact h.not_isGroupFault
  | nonString | invalid => exact id

theorem Wire.ValueFault.not_isGroupFault (h : ValueFault limits level offset rest e) :
    ¬ e.IsGroupFault := by
  obtain ⟨depth, inner, later, -, -, h⟩ := h
  cases h with
  | container h =>
    cases h with
    | short h => exact h.not_isGroupFault
    | depth | length => exact id
  | reserved => exact id

/-- What an entry comes to once its key and its value have been read. -/
theorem readEntry_of_reads (found : FieldMap) (hkey : Reader.key c = .ok key c₁)
    (hvalue : Reader.value limits 1 c₁ = .ok span c₂) : readEntry limits found c =
      if key ∈ found then .error (.duplicateKey key) c₂
      else if key = groupKey ∧ (Field.mk span).digest? = none then
        .error (.invalidGroupField c₁.offset span) c₂
      else .ok (found.insert key ⟨span⟩) c₂ := by
  have hoffset : Reader.offset c₁ = .ok c₁.offset c₁ := rfl
  unfold readEntry
  rw [bind_of_ok hkey, bind_of_ok hoffset, bind_of_ok hvalue]
  split_ifs <;> rfl

/-- Behind an entry with the key of the group, no entry fails for its group: a second one fails for
its key. -/
theorem not_isGroupFault_of_readEntry (hmem : groupKey ∈ found)
    (h : readEntry limits found c = .error e d) : ¬ e.IsGroupFault := by
  cases hkey : Reader.key c with
  | error e' d' =>
    unfold readEntry at h
    rw [bind_of_error hkey] at h
    cases h
    exact (fails_key _ _ _ hkey).not_isGroupFault
  | ok key c₁ =>
    cases hvalue : Reader.value limits 1 c₁ with
    | error e' d' =>
      have hoffset : Reader.offset c₁ = .ok c₁.offset c₁ := rfl
      unfold readEntry at h
      rw [bind_of_ok hkey, bind_of_ok hoffset, bind_of_error hvalue] at h
      cases h
      exact (fails_value limits 1 _ _ _ hvalue).not_isGroupFault
    | ok span c₂ =>
      rw [readEntry_of_reads found hkey hvalue] at h
      split_ifs at h with hfound hgroup
      · cases h
        exact id
      · exact absurd (hgroup.1 ▸ hmem) hfound

theorem mem_of_readEntry (hmem : groupKey ∈ found) (h : readEntry limits found c = .ok found' d) :
    groupKey ∈ found' := by
  obtain ⟨-, -, -, key, value, -, -, -, -, -, -, rfl⟩ := (reads_readEntry limits found _ _ _).1 h
  exact Std.ExtTreeMap.mem_insert.2 (.inr hmem)

theorem not_isGroupFault_of_readEntries (n : Nat) : ∀ {found : FieldMap} {c : Cursor},
    groupKey ∈ found → readEntries limits n found c = .error e d → ¬ e.IsGroupFault := by
  induction n with
  | zero =>
    intro found c _ h
    cases h
  | succ n ih =>
    intro found c hmem h
    unfold readEntries at h
    cases hentry : readEntry limits found c with
    | error e' d' =>
      rw [bind_of_error hentry] at h
      cases h
      exact not_isGroupFault_of_readEntry hmem hentry
    | ok found' c' =>
      rw [bind_of_ok hentry] at h
      exact ih (mem_of_readEntry hmem hentry) h

theorem readEntries_add (limits : Limits) (k n : Nat) (found : FieldMap) :
    readEntries limits (k + n) found =
      readEntries limits k found >>= readEntries limits n := by
  induction k generalizing found with
  | zero => rw [Nat.zero_add, readEntries, pure_bind]
  | succ k ih =>
    rw [Nat.add_right_comm, readEntries, readEntries, bind_assoc]
    exact bind_congr fun found' => ih found'

namespace Record

/-- `ReadsField limits b found key offset span` says that from the bytes `b` the decoder, behind the
entries `found`, reads a key and then, at an offset, a value: the bytes `span`. -/
inductive ReadsField (limits : Limits) (b : Bytes) :
    (found : FieldMap) → (key : String) → (offset : Nat) → (span : Bytes) → Prop
  | mk {n k : Nat} {found : FieldMap} {key : String} {span : Bytes} {c₁ c₂ c₃ c₄ : Cursor} :
    Reader.mapHeader limits (Cursor.start b) = .ok n c₁ → k < n →
    readEntries limits k ∅ c₁ = .ok found c₂ → Reader.key c₂ = .ok key c₃ →
    Reader.value limits 1 c₃ = .ok span c₄ → ReadsField limits b found key c₃.offset span

/-- The entry with this key and this value is read like any other one, and others behind it. -/
theorem ReadsField.exists_readEntry (h : ReadsField limits b found key offset span) :
    ∃ n c d, readBody limits (Cursor.start b) =
        (readEntry limits found >>= readEntries limits n) c ∧
      readEntry limits found c =
        if key ∈ found then .error (.duplicateKey key) d
        else if key = groupKey ∧ (Field.mk span).digest? = none then
          .error (.invalidGroupField offset span) d
        else .ok (found.insert key ⟨span⟩) d := by
  obtain ⟨hheader, hk, hfound, hkey, hvalue⟩ := h
  obtain ⟨n, rfl⟩ := Nat.exists_eq_add_of_lt hk
  refine ⟨n, _, _, ?_, readEntry_of_reads _ hkey hvalue⟩
  unfold readBody
  rw [bind_of_ok hheader, Nat.add_assoc, readEntries_add, bind_of_ok hfound]
  rfl

theorem ReadsField.decode_of_mem (h : ReadsField limits b found key offset span)
    (hmem : key ∈ found) : decode limits b = .error (.duplicateKey key) := by
  obtain ⟨n, c, d, hbody, hentry⟩ := h.exists_readEntry
  rw [if_pos hmem] at hentry
  rw [bind_of_error hentry] at hbody
  exact decode_of_readBody_eq_error hbody

theorem ReadsField.decode_of_digest?_eq_none
    (h : ReadsField limits b found groupKey offset span) (hnew : groupKey ∉ found)
    (hd : (Field.mk span).digest? = none) :
    decode limits b = .error (.invalidGroupField offset span) := by
  obtain ⟨n, c, d, hbody, hentry⟩ := h.exists_readEntry
  rw [if_neg hnew, if_pos ⟨rfl, hd⟩] at hentry
  rw [bind_of_error hentry] at hbody
  exact decode_of_readBody_eq_error hbody

/-- Once a group has been read, whatever is refused behind it is refused for something else. -/
theorem ReadsField.not_isGroupFault (h : ReadsField limits b found groupKey offset span)
    (hnew : groupKey ∉ found) (hd : (Field.mk span).digest? ≠ none)
    (hdec : decode limits b = .error e) : ¬ e.IsGroupFault := by
  obtain ⟨n, c, d, hbody, hentry⟩ := h.exists_readEntry
  rw [if_neg hnew, if_neg fun hgroup => hd hgroup.2] at hentry
  rw [bind_of_ok hentry] at hbody
  cases hlater : readEntries limits n (found.insert groupKey ⟨span⟩) d with
  | error e' d' =>
    rw [decode_of_readBody_eq_error (hbody.trans hlater)] at hdec
    cases hdec
    exact not_isGroupFault_of_readEntries n Std.ExtTreeMap.mem_insert_self hlater
  | ok entries d' =>
    rw [decode_of_readBody_eq_ok (hbody.trans hlater)] at hdec
    split_ifs at hdec
    cases hdec
    exact id

/-- The two ways to read a binary agree.  A payload is found in exactly the binaries that are read to
their end as one value, whatever the limits; it is found in every canonical binary; and where the
decoder reads a value under the key of the group, it refuses it as one exactly if it is no binary
with a payload of 32 bytes, or, if an entry in front of it has this key, refuses it for its key. -/
theorem binary_readers_agree (limits : Limits) :
    (∀ level raw payload, (Field.mk raw).payload? = some payload ↔ ∃ tag width rest,
      (tag, width) ∈ binaryTags ∧ raw = tag :: rest ∧ payload = rest.drop width ∧
      Reader.value limits level (Cursor.start raw) =
        .ok raw ((Cursor.start raw).advance raw.length)) ∧
    (∀ payload : Bytes, payload.length < 2 ^ 32 →
      (Field.binary payload).payload? = some payload) ∧
    ∀ b found offset span, ReadsField limits b found groupKey offset span →
      (groupKey ∈ found → decode limits b = .error (.duplicateKey groupKey)) ∧
      (groupKey ∉ found →
        (decode limits b = .error (.invalidGroupField offset span) ↔
          ∀ payload, IsBinary payload span → payload.length ≠ 32) ∧
        ∀ offset' span', decode limits b = .error (.invalidGroupField offset' span') →
          offset' = offset ∧ span' = span) := by
  refine ⟨fun level raw payload => Field.payload?_eq_some_iff_value limits level,
    fun payload h => Field.payload?_binary h,
    fun b found offset span h => ⟨h.decode_of_mem, fun hnew => ?_⟩⟩
  have hnone : (Field.mk span).digest? = none ↔
      ∀ payload, IsBinary payload span → payload.length ≠ 32 := by
    rw [← Option.not_isSome_iff_eq_none, Field.isSome_digest?_iff]
    simp only [not_exists, not_and, ne_eq]
    exact forall_congr' fun payload => imp_not_comm
  by_cases hd : (Field.mk span).digest? = none
  · have hdecode := h.decode_of_digest?_eq_none hnew hd
    refine ⟨⟨fun _ => hnone.1 hd, fun _ => hdecode⟩, fun offset' span' hdecode' => ?_⟩
    rw [hdecode] at hdecode'
    cases hdecode'
    exact ⟨rfl, rfl⟩
  · have hother (offset' : Nat) (span' : Bytes) :
        decode limits b ≠ .error (.invalidGroupField offset' span') :=
      fun hdecode => h.not_isGroupFault hnew hd hdecode trivial
    exact ⟨⟨fun hdecode => absurd hdecode (hother _ _), fun hbinary => absurd (hnone.2 hbinary) hd⟩,
      fun offset' span' hdecode => absurd hdecode (hother _ _)⟩

/-- A binary of one byte under the key of the group. -/
theorem binary_readers_agree_short :
    let b : Bytes := [0x81, 0xa3, 0x67, 0x72, 0x70, 0xc4, 0x01, 0x07]
    [0x07].length < 2 ^ 32 ∧ (Field.binary [0x07]).payload? = some [0x07] ∧
      ReadsField {} b ∅ groupKey 5 [0xc4, 0x01, 0x07] ∧ groupKey ∉ (∅ : FieldMap) ∧
      decode {} b = .error (.invalidGroupField 5 [0xc4, 0x01, 0x07]) := by
  intro b
  have hheader : Reader.mapHeader {} (Cursor.start b) = .ok 1 ((Cursor.start b).advance 1) := by cbv
  have hkey : Reader.key ((Cursor.start b).advance 1) =
      .ok groupKey ((Cursor.start b).advance 5) := by cbv
  have hvalue : Reader.value {} 1 ((Cursor.start b).advance 5) =
      .ok [0xc4, 0x01, 0x07] ((Cursor.start b).advance 8) := by cbv
  have hreads : ReadsField {} b ∅ groupKey 5 [0xc4, 0x01, 0x07] :=
    .mk hheader Nat.zero_lt_one rfl hkey hvalue
  have hnew : groupKey ∉ (∅ : FieldMap) := Std.ExtTreeMap.not_mem_empty
  obtain ⟨-, hcanonical, hgroup⟩ := binary_readers_agree {}
  refine ⟨by decide, hcanonical _ (by decide), hreads, hnew,
    ((hgroup _ _ _ _ hreads).2 hnew).1.2 fun payload hbinary => ?_⟩
  exact (hbinary.length_lt.trans (by decide)).ne

/-- What is read under the key of the group in a second entry with this key is no group, but it is
for its key that it is refused. -/
theorem duplicate_group_refused :
    let b : Bytes := [0x82, 0xa3, 0x67, 0x72, 0x70, 0xc4, 0x20] ++ List.replicate 32 0x07 ++
      [0xa3, 0x67, 0x72, 0x70, 0x01]
    (∃ found, ReadsField {} b found groupKey 43 [0x01]) ∧
      (∀ payload, IsBinary payload [0x01] → payload.length ≠ 32) ∧
      decode {} b = .error (.duplicateKey groupKey) ∧
      ∀ offset span, decode {} b ≠ .error (.invalidGroupField offset span) := by
  intro b
  let c := Cursor.start b
  let group : Bytes := 0xc4 :: 0x20 :: List.replicate 32 0x07
  have hheader : Reader.mapHeader {} c = .ok 2 (c.advance 1) := by cbv
  have hfirst : Reader.key (c.advance 1) = .ok groupKey (c.advance 5) := by cbv
  have hgroup : Reader.value {} 1 (c.advance 5) = .ok group (c.advance 39) := by cbv
  have hsecond : Reader.key (c.advance 39) = .ok groupKey (c.advance 43) := by cbv
  have hvalue : Reader.value {} 1 (c.advance 43) = .ok [0x01] (c.advance 44) := by cbv
  have hentry : readEntries {} 1 ∅ (c.advance 1) =
      .ok ((∅ : FieldMap).insert groupKey ⟨group⟩) (c.advance 39) := by
    have hread := readEntry_of_reads ∅ hfirst hgroup
    have hd : (Field.mk group).digest?.isSome := by cbv
    rw [if_neg Std.ExtTreeMap.not_mem_empty,
      if_neg fun hnone => Option.isSome_iff_ne_none.1 hd hnone.2] at hread
    unfold readEntries
    rw [bind_of_ok hread]
    rfl
  have hreads : ReadsField {} b _ groupKey 43 [0x01] :=
    .mk hheader Nat.one_lt_two hentry hsecond hvalue
  have hdecode := hreads.decode_of_mem Std.ExtTreeMap.mem_insert_self
  refine ⟨⟨_, hreads⟩, fun payload hbinary => (hbinary.length_lt.trans (by decide)).ne, hdecode,
    fun offset span hother => ?_⟩
  rw [hdecode] at hother
  cases hother

end Record

end

end AtomicGroups
