import Mathlib
import AtomicGroups.Proofs.Wire.Values
import AtomicGroups.Record.Decoding
import AtomicGroups.Record.Grammar
import AtomicGroups.Record.Lemmas

/-!
# The decoder of records and its grammar

A byte string decodes to a record exactly if it is one in the grammar, and the record is then that
of the entries written in it (`Record.decode_eq_ok_iff`).  The entries are determined by the bytes
(`AreEntries.unique`).
-/

namespace AtomicGroups

open Wire

/-! ## Binaries -/

namespace Field

variable {f : Field}

/-- The payload that is looked up in a value is that of the grammar. -/
theorem payload?_eq_some_iff {payload : Bytes} :
    f.payload? = some payload ↔ IsBinary payload f.encoded := by
  obtain ⟨encoded⟩ := f
  constructor
  · intro h
    unfold payload? at h
    cases encoded with
    | nil => cases h
    | cons tag rest =>
      dsimp only at h
      split at h
      · next width ht =>
        split_ifs at h with hlen
        cases h
        have hbinary : IsBinary (rest.drop width) (tag :: (rest.take width ++ rest.drop width)) :=
          .mk (typeByte_iff.2 ⟨ht, Format.noConfusion⟩)
            ⟨List.length_take_of_le hlen.1, hlen.2⟩
        rwa [List.take_append_drop] at hbinary
      · cases h
  · rintro @⟨tag, k, count, ht, hk⟩
    have hwide : ∃ width, k = .wide width := by
      rcases typeByte_binary_iff.1 ht with ⟨-, rfl⟩ | ⟨-, rfl⟩ | ⟨-, rfl⟩ <;> exact ⟨_, rfl⟩
    obtain ⟨width, rfl⟩ := hwide
    obtain ⟨rfl, hlen⟩ := hk
    rw [← Bytes.ofNat_toNat count, ← hlen]
    exact payload?_of_format ht.ofByte_eq (hlen ▸ Bytes.toNat_lt count)

theorem digest?_eq_some_iff {d : Digest} : f.digest? = some d ↔ IsBinary d.bytes f.encoded := by
  unfold digest?
  simp [Option.bind_eq_some_iff, payload?_eq_some_iff, Digest.ofBytes?_eq_some_iff]

theorem isSome_digest?_iff :
    f.digest?.isSome ↔ ∃ payload, payload.length = 32 ∧ IsBinary payload f.encoded := by
  rw [Option.isSome_iff_exists]
  simp only [digest?_eq_some_iff]
  constructor
  · rintro ⟨d, hd⟩
    exact ⟨d.bytes, d.length_bytes, hd⟩
  · rintro ⟨payload, hlen, hbinary⟩
    exact ⟨⟨payload, hlen⟩, hbinary⟩

end Field

/-! ## Entries in a row -/

section

variable {e h : Nat} {entries : List (String × Field)} {b : Bytes}

theorem areEntries_nil_iff : AreEntries e h [] b ↔ b = [] := by
  constructor
  · intro hb
    cases hb
    rfl
  · rintro rfl
    exact .nil

theorem areEntries_cons_iff {key : String} {value : Field} :
    AreEntries e h ((key, value) :: entries) b ↔ ∃ name rest, b = name ++ value.encoded ++ rest ∧
      IsKey name key ∧ IsValue e h value.encoded ∧ AreEntries e h entries rest := by
  constructor
  · intro hb
    cases hb with
    | cons hk hv hr => exact ⟨_, _, rfl, hk, hv, hr⟩
  · rintro ⟨name, rest, rfl, hk, hv, hr⟩
    exact .cons hk hv hr

/-- An entry takes at least one byte for its key and one for its value. -/
theorem AreEntries.le_length (hb : AreEntries e h entries b) : entries.length * 2 ≤ b.length := by
  induction hb with
  | nil => exact Nat.zero_le _
  | cons hk hv _ ih =>
    have hkey := hk.length_pos
    have hvalue := hv.length_pos
    rw [List.length_cons, List.length_append, List.length_append]
    omega

theorem AreEntries.of_mem (hb : AreEntries e h entries b) {key : String} {value : Field}
    (hmem : (key, value) ∈ entries) : (∃ name, IsKey name key) ∧ IsValue e h value.encoded := by
  induction hb with
  | nil => cases hmem
  | cons hk hv _ ih =>
    rcases List.mem_cons.1 hmem with heq | hmem
    · cases heq
      exact ⟨⟨_, hk⟩, hv⟩
    · exact ih hmem

theorem AreEntries.mono {e' h' : Nat} (he : e ≤ e') (hh : h ≤ h') (hb : AreEntries e h entries b) :
    AreEntries e' h' entries b := by
  induction hb with
  | nil => exact .nil
  | cons hk hv _ ih => exact .cons hk (hv.mono he hh) ih

/-- The entries that bytes are made of are determined by the bytes, under whatever limits. -/
theorem AreEntries.unique {e' h' : Nat} {entries' : List (String × Field)} {b' : Bytes}
    (hb : AreEntries e h entries b) (hb' : AreEntries e' h' entries' b') (heq : b = b') :
    entries = entries' := by
  induction hb generalizing entries' b' with
  | nil =>
    cases hb' with
    | nil => rfl
    | @cons _ _ _ name _ hk _ _ =>
      have hpos := hk.length_pos
      have hlen := congrArg List.length heq
      simp only [List.length_nil, List.length_append] at hlen
      omega
  | @cons key value entries name rest hk hv _ ih =>
    cases hb' with
    | nil =>
      have hpos := hk.length_pos
      have hlen := congrArg List.length heq
      simp only [List.length_nil, List.length_append] at hlen
      omega
    | @cons _ value' _ _ _ hk' hv' hr' =>
      rw [List.append_assoc, List.append_assoc] at heq
      obtain ⟨-, heq, rfl⟩ := hk.unique hk' heq
      obtain ⟨hvalue, heq⟩ := hv.unique hv' heq
      rw [ih hr' heq, show value = value' from congrArg Field.mk hvalue]

theorem isRecord_iff {limits : Limits} : IsRecord limits entries b ↔ ∃ tag k count body,
    b = tag :: (count ++ body) ∧ Format.ofByte tag = .map k ∧ k.Spells count entries.length ∧
      entries.length ≤ limits.maxEntries ∧ 0 < limits.maxDepth ∧
      AreEntries limits.maxEntries (limits.maxDepth - 1) entries body ∧
      (entries.map Prod.fst).Nodup ∧
      ∀ value, (groupKey, value) ∈ entries → value.digest?.isSome := by
  constructor
  · intro hb
    cases hb with
    | @mk tag k count body height ht hk hn hdepth hb hnodup hds =>
      rw [show height = limits.maxDepth - 1 by omega] at hb
      exact ⟨tag, k, count, body, rfl, ht.ofByte_eq, hk, hn, by omega, hb, hnodup,
        fun value hmem => Field.isSome_digest?_iff.2 (hds value hmem)⟩
  · rintro ⟨tag, k, count, body, rfl, ht, hk, hn, hdepth, hb, hnodup, hds⟩
    exact .mk (typeByte_iff.2 ⟨ht, Format.noConfusion⟩) hk hn (Nat.sub_add_cancel hdepth) hb hnodup
      fun value hmem => Field.isSome_digest?_iff.1 (hds value hmem)

end

/-! ## Reading -/

section

variable (limits : Limits)

theorem reads_readEntry (before : FieldMap) :
    Reader.Reads (readEntry limits before) fun b _ after =>
    ∃ key value name, b = name ++ value.encoded ∧ IsKey name key ∧
      IsValue limits.maxEntries (limits.maxDepth - 1) value.encoded ∧ key ∉ before ∧
      (key = groupKey → value.digest?.isSome) ∧ after = before.insert key value := by
  unfold readEntry
  refine (Reader.reads_key.bind fun key => Reader.Reads.afterOffset fun start =>
    Reader.Reads.bind (H := fun encoded b _ after => b = [] ∧ key ∉ before ∧
      (key = groupKey → (Field.mk encoded).digest?.isSome) ∧ after = before.insert key ⟨encoded⟩)
      (Reader.reads_value limits 1) fun encoded => ?_).congr fun b rest after => ?_
  · dsimp only
    by_cases hmem : key ∈ before
    · rw [if_pos hmem]
      exact (Reader.reads_throw_bind _ _).congr fun b rest after => by simp [hmem]
    rw [if_neg hmem]
    by_cases hgroup : key = groupKey ∧ (Field.mk encoded).digest? = none
    · rw [if_pos hgroup]
      refine (Reader.reads_throw_bind _ _).congr fun b rest after => ⟨False.elim, ?_⟩
      rintro ⟨-, -, hd, -⟩
      have hsome := hd hgroup.1
      rw [hgroup.2] at hsome
      cases hsome
    · rw [if_neg hgroup]
      refine (Reader.reads_pure _).congr fun b rest after => and_congr_right fun _ => ?_
      have hd : key = groupKey → (Field.mk encoded).digest?.isSome := by
        intro hkey
        rw [Option.isSome_iff_ne_none]
        exact fun hnone => hgroup ⟨hkey, hnone⟩
      exact ⟨fun hx => ⟨hmem, hd, hx⟩, fun hx => hx.2.2⟩
  · constructor
    · rintro ⟨name, -, key, rfl, hk, value, -, encoded, rfl, ⟨rfl, hv⟩, rfl, hmem, hd, rfl⟩
      exact ⟨key, ⟨encoded⟩, name, by rw [List.append_nil], hk, hv, hmem, hd, rfl⟩
    · rintro ⟨key, value, name, rfl, hk, hv, hmem, hd, rfl⟩
      exact ⟨name, value.encoded, key, rfl, hk, value.encoded, [], value.encoded,
        (List.append_nil _).symm, ⟨rfl, hv⟩, rfl, hmem, hd, rfl⟩

/-- Entries are read one behind the other, each with a key that is new. -/
theorem reads_readEntries (n : Nat) : ∀ before : FieldMap,
    Reader.Reads (readEntries limits n before) fun b _ after => ∃ entries,
      entries.length = n ∧ AreEntries limits.maxEntries (limits.maxDepth - 1) entries b ∧
      (entries.map Prod.fst).Nodup ∧ (∀ entry ∈ entries, entry.1 ∉ before) ∧
      (∀ value, (groupKey, value) ∈ entries → value.digest?.isSome) ∧
      after = before.insertMany entries := by
  induction n with
  | zero =>
    intro before
    refine (Reader.reads_pure before).congr fun b rest after => ?_
    constructor
    · rintro ⟨rfl, rfl⟩
      exact ⟨[], rfl, .nil, List.nodup_nil, by simp, by simp, Std.ExtTreeMap.insertMany_nil.symm⟩
    · rintro ⟨entries, hlen, hb, -, -, -, rfl⟩
      rw [List.length_eq_zero_iff] at hlen
      subst hlen
      exact ⟨areEntries_nil_iff.1 hb, Std.ExtTreeMap.insertMany_nil⟩
  | succ n ih =>
    intro before
    refine ((reads_readEntry limits before).bind fun after => ih after).congr
      fun b rest after => ?_
    constructor
    · rintro ⟨-, tail, -, rfl, ⟨key, value, name, rfl, hk, hv, hmem, hd, rfl⟩, entries, rfl, hb,
        hnodup, hnew, hds, rfl⟩
      have hnew' : ∀ entry ∈ entries, entry.1 ≠ key ∧ entry.1 ∉ before := by
        intro entry hentry
        have h := hnew entry hentry
        rw [Std.ExtTreeMap.mem_insert, not_or] at h
        exact ⟨fun heq => h.1 (heq ▸ Std.ReflCmp.compare_self), h.2⟩
      refine ⟨(key, value) :: entries, rfl, .cons hk hv hb, ?_, ?_, ?_, ?_⟩
      · rw [List.map_cons, List.nodup_cons]
        refine ⟨fun hkey => ?_, hnodup⟩
        obtain ⟨entry, hentry, heq⟩ := List.mem_map.1 hkey
        exact (hnew' entry hentry).1 heq
      · intro entry hentry
        rcases List.mem_cons.1 hentry with rfl | hentry
        · exact hmem
        · exact (hnew' entry hentry).2
      · intro value' hentry
        rcases List.mem_cons.1 hentry with heq | hentry
        · cases heq
          exact hd rfl
        · exact hds value' hentry
      · rw [Std.ExtTreeMap.insertMany_cons]
    · rintro ⟨entries, hlen, hb, hnodup, hnew, hds, rfl⟩
      cases entries with
      | nil => cases hlen
      | cons entry entries =>
        obtain ⟨key, value⟩ := entry
        obtain ⟨name, tail, rfl, hk, hv, hb⟩ := areEntries_cons_iff.1 hb
        rw [List.map_cons, List.nodup_cons] at hnodup
        refine ⟨name ++ value.encoded, tail, before.insert key value, rfl,
          ⟨key, value, name, rfl, hk, hv, hnew _ List.mem_cons_self, ?_, rfl⟩, entries,
          Nat.succ.inj hlen, hb, hnodup.2, ?_, ?_, Std.ExtTreeMap.insertMany_cons⟩
        · rintro rfl
          exact hds value List.mem_cons_self
        · intro entry hentry
          rw [Std.ExtTreeMap.mem_insert, not_or]
          refine ⟨fun heq => hnodup.1 ?_, hnew entry (List.mem_cons_of_mem _ hentry)⟩
          rw [Std.LawfulEqCmp.eq_of_compare heq]
          exact List.mem_map.2 ⟨entry, hentry, rfl⟩
        · intro value' hentry
          exact hds value' (List.mem_cons_of_mem _ hentry)

/-- Reads a record up to the end of its last entry. -/
def readBody (limits : Limits) : Reader FieldMap := do
  readEntries limits (← Reader.mapHeader limits) ∅

theorem readRecord_eq : readRecord limits = do
    let entries ← readBody limits
    Reader.finish
    return Record.ofEntries entries := by
  unfold readRecord readBody
  rw [bind_assoc]

/-- The entries that are read behind a header are those of the grammar. -/
theorem reads_readBody : Reader.Reads (readBody limits) fun b _ found =>
    ∃ entries, IsRecord limits entries b ∧ found = .ofList entries byteOrder := by
  refine ((Reader.reads_mapHeader limits).bind fun n => reads_readEntries limits n ∅).congr
    fun b rest found => ?_
  constructor
  · rintro ⟨-, body, n, rfl, ⟨⟨tag, k, count, rfl, ht, hk⟩, hdepth, hn, -⟩, entries, rfl, hb, hnodup,
      -, hds, rfl⟩
    rw [← Std.ExtTreeMap.ofList_eq_insertMany_empty]
    exact ⟨entries, isRecord_iff.2 ⟨tag, k, count, body, rfl, ht, hk, hn, hdepth, hb, hnodup, hds⟩,
      rfl⟩
  · rintro ⟨entries, hb, rfl⟩
    obtain ⟨tag, k, count, body, rfl, ht, hk, hn, hdepth, hb, hnodup, hds⟩ := isRecord_iff.1 hb
    have hroom := hb.le_length
    refine ⟨tag :: count, body, entries.length, rfl, ⟨⟨tag, k, count, rfl, ht, hk⟩, hdepth, hn, ?_⟩,
      entries, rfl, hb, hnodup, by simp, hds, Std.ExtTreeMap.ofList_eq_insertMany_empty⟩
    rw [List.length_append]
    omega

theorem reads_readRecord : Reader.Reads (readRecord limits) fun b rest r =>
    rest = [] ∧ ∃ entries, IsRecord limits entries b ∧
      r = Record.ofEntries (.ofList entries byteOrder) := by
  rw [readRecord_eq]
  refine ((reads_readBody limits).bind fun found => Reader.reads_finish.bind fun _ =>
    Reader.reads_pure (Record.ofEntries found)).congr fun b rest r => ?_
  constructor
  · rintro ⟨b, -, -, rfl, ⟨entries, hb, rfl⟩, -, -, -, rfl, ⟨rfl, hrest⟩, rfl, rfl⟩
    rw [List.append_nil, List.append_nil]
    exact ⟨hrest, entries, hb, rfl⟩
  · rintro ⟨rfl, entries, hb, rfl⟩
    exact ⟨b, [], _, (List.append_nil b).symm, ⟨entries, hb, rfl⟩, [], [], (), rfl, ⟨rfl, rfl⟩, rfl,
      rfl⟩

/-- A byte string decodes exactly if it is a record of the grammar, and to the record of the entries
written in it. -/
theorem Record.decode_eq_ok_iff {b : Bytes} {r : Record} : Record.decode limits b = .ok r ↔
    ∃ entries, IsRecord limits entries b ∧ r = Record.ofEntries (.ofList entries byteOrder) := by
  unfold Record.decode
  rw [(reads_readRecord limits).parse_eq_ok]
  constructor
  · rintro ⟨b', rest, rfl, rfl, h⟩
    rwa [List.append_nil]
  · intro h
    exact ⟨b, [], (List.append_nil b).symm, rfl, h⟩

/-- What decodes also decodes under looser limits, and to the same record. -/
theorem Record.decode_mono {limits' : Limits} {b : Bytes} {r : Record}
    (hdepth : limits.maxDepth ≤ limits'.maxDepth) (hmax : limits.maxEntries ≤ limits'.maxEntries)
    (h : Record.decode limits b = .ok r) : Record.decode limits' b = .ok r := by
  obtain ⟨entries, hb, rfl⟩ := (decode_eq_ok_iff limits).1 h
  obtain ⟨tag, k, count, body, rfl, ht, hk, hn, hpos, hb, hnodup, hds⟩ := isRecord_iff.1 hb
  exact (decode_eq_ok_iff limits').2 ⟨entries, isRecord_iff.2 ⟨tag, k, count, body, rfl, ht, hk,
    hn.trans hmax, hpos.trans_le hdepth, hb.mono hmax (Nat.sub_le_sub_right hdepth 1), hnodup, hds⟩,
    rfl⟩

end

end AtomicGroups
