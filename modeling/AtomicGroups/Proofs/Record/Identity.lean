import Mathlib
import AtomicGroups.Proofs.Record.RoundTrip
import AtomicGroups.Transaction

/-!
# The identity of a transaction

What is hashed for a transaction is determined by the fields of its record, and determines them
(`Record.preimage_eq_iff`).  The fields are what is written apart from the group, in whatever order
(`IsRecord.fields_eq_iff`).  So transactions with the same fields have the same digest, and others
only if the hash has a collision.
-/

namespace AtomicGroups

variable {limits limits' : Limits} {b b' : Bytes} {r s : Record}

namespace Record

theorem samePayload_iff : r.samePayload s = true ↔ r.fields = s.fields :=
  decide_eq_true_iff

/-- With one group, records are equal exactly if their fields are. -/
theorem withGroup_eq_iff {g : Digest} : r.withGroup g = s.withGroup g ↔ r.fields = s.fields :=
  ⟨congrArg fields, fun h => Record.ext h rfl⟩

/-- What is hashed for two records that were decoded is equal exactly if their fields are. -/
theorem preimage_eq_iff (hr : decode limits b = .ok r) (hs : decode limits' b' = .ok s) :
    r.preimage = s.preimage ↔ r.fields = s.fields := by
  constructor
  · intro h
    exact fields_eq_of_encode_eq hr hs (List.append_cancel_left h)
  · intro h
    unfold preimage withoutGroup
    rw [withGroup_eq_iff.2 h]

theorem fields_eq_iff : r.fields = s.fields ↔ ∀ key, r.field? key = s.field? key :=
  Std.ExtTreeMap.ext_getElem?_iff

end Record

/-! ## What is written -/

namespace IsRecord

variable {entries entries' : List (String × Field)} {key : String} {value : Field}

theorem nodup_keys (hb : IsRecord limits entries b) : (entries.map Prod.fst).Nodup := by
  obtain ⟨-, -, -, -, -, -, -, -, -, -, hnodup, -⟩ := isRecord_iff.1 hb
  exact hnodup

/-- The fields are the entries that are written, apart from the group. -/
theorem mem_filter_iff (hb : IsRecord limits entries b) (h : Record.decode limits b = .ok r) :
    (key, value) ∈ entries.filter (fun entry => entry.1 ≠ groupKey) ↔
      r.field? key = some value := by
  have hr := (Record.decode_eq_ok_iff limits).2 ⟨entries, hb, rfl⟩
  rw [h] at hr
  cases hr
  rw [Record.field?_ofEntries_ofList hb.nodup_keys, List.mem_filter, decide_eq_true_iff, and_comm]

/-- Two records have the same fields exactly if, apart from the groups and from the order, the same
is written in them. -/
theorem fields_eq_iff (hb : IsRecord limits entries b) (hb' : IsRecord limits' entries' b')
    (hr : Record.decode limits b = .ok r) (hs : Record.decode limits' b' = .ok s) :
    r.fields = s.fields ↔ (entries.filter fun entry => entry.1 ≠ groupKey).Perm
      (entries'.filter fun entry => entry.1 ≠ groupKey) := by
  rw [Record.fields_eq_iff, List.perm_ext_iff_of_nodup (hb.nodup_keys.of_map.filter _)
    (hb'.nodup_keys.of_map.filter _)]
  constructor
  · rintro h ⟨key, value⟩
    rw [hb.mem_filter_iff hr, hb'.mem_filter_iff hs, h key]
  · intro h key
    refine Option.ext fun value => ?_
    rw [← hb.mem_filter_iff hr, ← hb'.mem_filter_iff hs, h (key, value)]

end IsRecord

/-! ## Digests -/

namespace Transaction

variable {tx tx' : Transaction}

theorem digest_of_record (h : tx.record limits = .ok r) :
    tx.digest limits = .ok (Sha512.hash256 r.preimage) := by
  unfold digest
  rw [h]
  rfl

/-- What is hashed for two transactions is equal exactly if they have the same payload, that is if
the same is written in them apart from the groups, in whatever order and with whatever headers.
Then the digests are equal; if the payloads differ, they are not, unless the hash has a collision. -/
theorem preimage_eq_iff_samePayload (limits limits' : Limits) (tx tx' : Transaction) (r s : Record)
    (hr : tx.record limits = .ok r) (hs : tx'.record limits' = .ok s) :
    (r.preimage = s.preimage ↔ r.samePayload s = true) ∧
    (∀ entries entries', IsRecord limits entries tx.bytes → IsRecord limits' entries' tx'.bytes →
      (r.samePayload s = true ↔ (entries.filter fun entry => entry.1 ≠ groupKey).Perm
        (entries'.filter fun entry => entry.1 ≠ groupKey))) ∧
    (r.samePayload s = true → tx.digest limits = tx'.digest limits') ∧
    (r.samePayload s = false → tx.digest limits = tx'.digest limits' →
      r.preimage ≠ s.preimage ∧ Sha512.hash256 r.preimage = Sha512.hash256 s.preimage) := by
  have hpreimage := Record.preimage_eq_iff hr hs
  rw [← Record.samePayload_iff] at hpreimage
  rw [digest_of_record hr, digest_of_record hs, Except.ok.injEq]
  refine ⟨hpreimage, fun entries entries' hb hb' => ?_, fun h => ?_, fun h hdigest => ?_⟩
  · rw [Record.samePayload_iff, hb.fields_eq_iff hb' hr hs]
  · rw [hpreimage.2 h]
  · refine ⟨fun heq => ?_, hdigest⟩
    rw [hpreimage.1 heq] at h
    cases h

/-- A record keeps its digest when it is stamped, and another value gives another string to hash. -/
theorem preimage_eq_iff_samePayload_stamped :
    let plain : Transaction := ⟨[0x81, 0xa1, 0x61, 0x01]⟩
    let stamped := (Record.oneField.withGroup ⟨List.replicate 32 7, rfl⟩).toTransaction
    let other := Record.empty.insert "a" ⟨[0x02]⟩
    stamped ≠ plain ∧ plain.digest {} = stamped.digest ⟨1, 2⟩ ∧
      Record.oneField.preimage ≠ other.preimage := by
  intro plain stamped other
  have hplain : plain.record {} = .ok Record.oneField :=
    Record.decode_oneField (by decide) (by decide)
  have hstamped : stamped.record ⟨1, 2⟩ = .ok (Record.oneField.withGroup _) :=
    Record.decode_encode_oneField_withGroup (by decide) (by decide) _
  have hother : other.toTransaction.record {} = .ok other :=
    (Record.FieldsFit.insert (Record.fieldsFit_empty (by decide)) (by decide)
      (.fixed (by decide))).decode_encode_eq_ok_iff.2 ⟨rfl, by decide, by decide⟩
  refine ⟨by decide +kernel, ?_, ?_⟩
  · exact (preimage_eq_iff_samePayload {} ⟨1, 2⟩ plain stamped _ _ hplain hstamped).2.2.1
      (by decide)
  · rw [Ne, (preimage_eq_iff_samePayload {} {} plain other.toTransaction _ _ hplain hother).1]
    decide

end Transaction

end AtomicGroups
