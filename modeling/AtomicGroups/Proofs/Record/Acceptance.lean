import Mathlib
import AtomicGroups.Proofs.Record.RoundTrip

/-!
# What is accepted as a record

A byte string decodes exactly if it is a record of the grammar.  The grammar leaves no choice:
whichever way the bytes are read as entries, the record has the payload of the group entry as its
group and the values of the other entries, byte by byte, as its fields.
-/

namespace AtomicGroups.Record

open Wire

variable {entries : List (String × Field)} {value : Field}

/-- The group of the record of some entries is the one written among them. -/
theorem group_ofEntries_ofList (h : (entries.map Prod.fst).Nodup)
    (hmem : (groupKey, value) ∈ entries) {g : Digest} (hg : value.digest? = some g) :
    (ofEntries (.ofList entries byteOrder)).group = g := by
  unfold ofEntries
  dsimp only
  rw [(getElem?_ofList_eq_some_iff h).2 hmem, Option.bind_some, hg]
  rfl

theorem group_ofEntries_ofList_of_not_mem (h : (entries.map Prod.fst).Nodup)
    (hmem : ∀ value, (groupKey, value) ∉ entries) :
    (ofEntries (.ofList entries byteOrder)).group = Digest.zero := by
  have hnone : (Std.ExtTreeMap.ofList entries byteOrder)[groupKey]? = none := by
    rw [Option.eq_none_iff_forall_ne_some]
    intro value hvalue
    exact hmem value ((getElem?_ofList_eq_some_iff h).1 hvalue)
  unfold ofEntries
  dsimp only
  rw [hnone]
  rfl

/-- A byte string decodes exactly if it is a record of the grammar.  The record has the group that
is written under the group key, or none, and the other entries as its fields. -/
theorem decode_isRecord (limits : Limits) (b : Bytes) :
    ((∃ r, decode limits b = .ok r) ↔ ∃ entries, IsRecord limits entries b) ∧
    ∀ entries r, IsRecord limits entries b → decode limits b = .ok r →
      (∀ value, (groupKey, value) ∈ entries → IsBinary r.group.bytes value.encoded) ∧
      ((∀ value, (groupKey, value) ∉ entries) → r.group = Digest.zero) ∧
      ∀ key value, r.field? key = some value ↔ key ≠ groupKey ∧ (key, value) ∈ entries := by
  constructor
  · constructor
    · rintro ⟨r, h⟩
      obtain ⟨entries, hb, -⟩ := (decode_eq_ok_iff limits).1 h
      exact ⟨entries, hb⟩
    · rintro ⟨entries, hb⟩
      exact ⟨_, (decode_eq_ok_iff limits).2 ⟨entries, hb, rfl⟩⟩
  · intro entries r hb h
    have hr : decode limits b = .ok (ofEntries (.ofList entries byteOrder)) :=
      (decode_eq_ok_iff limits).2 ⟨entries, hb, rfl⟩
    rw [h] at hr
    cases hr
    obtain ⟨-, -, -, -, -, -, -, -, -, -, hnodup, hdigests⟩ := isRecord_iff.1 hb
    refine ⟨fun value hmem => ?_, group_ofEntries_ofList_of_not_mem hnodup,
      fun key value => field?_ofEntries_ofList hnodup⟩
    obtain ⟨g, hg⟩ := Option.isSome_iff_exists.1 (hdigests value hmem)
    rw [group_ofEntries_ofList hnodup hmem hg]
    exact Field.digest?_eq_some_iff.1 hg

/-- A record with wide headers and its group in front. -/
theorem decode_isRecord_wide :
    let group : Bytes := [0xc5, 0x00, 0x20] ++ List.replicate 32 7
    ∃ r, decode {} ([0xde, 0x00, 0x02, 0xd9, 0x03, 0x67, 0x72, 0x70] ++ group ++
      [0xa1, 0x61, 0x92, 0x01, 0xc0]) = .ok r ∧ r.group.bytes = List.replicate 32 7 ∧
      r.field? "a" = some ⟨[0x92, 0x01, 0xc0]⟩ := by
  intro group
  have hgroup : IsBinary (List.replicate 32 7) group :=
    @IsBinary.mk _ 0xc5 (.wide 2) [0x00, 0x20] (by decide) ⟨rfl, rfl⟩
  have hkey : IsKey [0xd9, 0x03, 0x67, 0x72, 0x70] groupKey :=
    @IsKey.mk 0xd9 (.wide 1) [0x03] groupKey (by decide) ⟨rfl, rfl⟩
  have hvalue : IsValue 65536 15 group :=
    @IsValue.binary _ _ 0xc5 (.wide 2) [0x00, 0x20] _ (by decide) ⟨rfl, rfl⟩
  have hkey' : IsKey [0xa1, 0x61] "a" :=
    @IsKey.mk 0xa1 (.inTag 1) [] "a" (by decide) ⟨rfl, rfl⟩
  have hitems : AreValues 65536 14 2 [0x01, 0xc0] :=
    .cons (@IsValue.fixed _ _ 0x01 [] (by decide))
      (.cons (@IsValue.fixed _ _ 0xc0 [] (by decide)) .nil)
  have hvalue' : IsValue 65536 15 [0x92, 0x01, 0xc0] :=
    @IsValue.array _ _ 0x92 (.inTag 2) [] _ 2 (by decide) ⟨rfl, rfl⟩ (by decide) hitems
  have hentries : AreEntries 65536 15 [(groupKey, ⟨group⟩), ("a", ⟨[0x92, 0x01, 0xc0]⟩)]
      ([0xd9, 0x03, 0x67, 0x72, 0x70] ++ group ++ [0xa1, 0x61, 0x92, 0x01, 0xc0]) :=
    .cons hkey hvalue (.cons hkey' hvalue' .nil)
  have hb : IsRecord {} [(groupKey, ⟨group⟩), ("a", ⟨[0x92, 0x01, 0xc0]⟩)]
      ([0xde, 0x00, 0x02, 0xd9, 0x03, 0x67, 0x72, 0x70] ++ group ++
        [0xa1, 0x61, 0x92, 0x01, 0xc0]) := by
    refine @IsRecord.mk _ _ 0xde (.wide 2) [0x00, 0x02] _ 15 (by decide) ⟨rfl, rfl⟩ (by decide)
      rfl hentries (by decide) ?_
    intro value hvalue
    simp only [List.mem_cons, Prod.mk.injEq, List.not_mem_nil, or_false] at hvalue
    rcases hvalue with ⟨-, rfl⟩ | ⟨hkey, -⟩
    · exact ⟨_, rfl, hgroup⟩
    · exact absurd hkey (by decide)
  obtain ⟨hok, hspec⟩ := decode_isRecord {} ([0xde, 0x00, 0x02, 0xd9, 0x03, 0x67, 0x72, 0x70] ++
    group ++ [0xa1, 0x61, 0x92, 0x01, 0xc0])
  obtain ⟨r, hr⟩ := hok.2 ⟨_, hb⟩
  obtain ⟨hgroups, -, hfields⟩ := hspec _ r hb hr
  have hpayload := Field.payload?_eq_some_iff.2 (hgroups _ List.mem_cons_self)
  rw [Field.payload?_eq_some_iff.2 hgroup] at hpayload
  exact ⟨r, hr, (Option.some.inj hpayload).symm, (hfields "a" _).2 ⟨by decide, by simp⟩⟩

end AtomicGroups.Record
