import Mathlib
import AtomicGroups.Group.Consistency
import AtomicGroups.Proofs.Batch
import AtomicGroups.Proofs.Record.RoundTrip
import AtomicGroups.Sha512.Hasher

/-!
# Composing and checking groups

Lists of digests of whatever length are encoded differently (`Group.preimage_injective`).  Stamping
does not change the digest of a record, so a group is composed of the same digests before and after
(`Group.ofRecords_map_withGroup`).  A batch is consistent if it claims no group but its own
(`Group.consistent_iff`).
-/

namespace AtomicGroups

/-! ## Hashes -/

/-- The digest of a record is that of a hasher that is fed the tag and then the canonical encoding
without the group. -/
theorem Record.digest_eq_hasher (r : Record) : r.digest =
    (((Sha512.Hasher.start []).update domain).update r.withoutGroup.encode).digest :=
  Sha512.tagged_eq_hasher domain r.withoutGroup.encode

/-- A group is the digest of a hasher behind its tag that is fed the list of digests. -/
theorem Group.ofDigests_eq_hasher (digests : List Digest) :
    ofDigests digests = ((Sha512.Hasher.start domain).update (encodeList digests)).digest := by
  rw [Sha512.Hasher.start_eq_fed, Sha512.Hasher.update_fed, Sha512.Hasher.digest_fed]
  rfl

namespace Sha512

theorem blocks_flatten {bs : List Bytes} (h : ∀ b ∈ bs, b.length = blockSize) :
    blocks bs.flatten = bs := by
  induction bs with
  | nil => exact blocks_of_lt (by decide)
  | cons b bs ih =>
    obtain ⟨hb, hbs⟩ := List.forall_mem_cons.1 h
    rw [List.flatten_cons, blocks_append hb, ih hbs]

/-- A message is hashed by compressing one by one the blocks that it is with its padding. -/
theorem hash256_of_blocks {m : Bytes} (bs : List Bytes) (h : bs.flatten = pad m)
    (hlength : ∀ b ∈ bs, b.length = blockSize) :
    hash256 m = (bs.foldl compress initial).digest := by
  unfold hash256 absorb
  rw [← h, blocks_flatten hlength]

theorem hash256_of_one_block {m : Bytes} (h : (pad m).length = blockSize) :
    hash256 m = (compress initial (pad m)).digest :=
  hash256_of_blocks [pad m] (by simp) (by simpa using h)

theorem hash256_of_two_blocks {m : Bytes} (h : (pad m).length = blockSize + blockSize) :
    hash256 m = (compress (compress initial ((pad m).take blockSize))
      ((pad m).drop blockSize)).digest :=
  hash256_of_blocks [(pad m).take blockSize, (pad m).drop blockSize] (by simp) (by simp [h])

end Sha512

/-! ## The encoding of lists of digests -/

namespace Group

/-- The length of an array header tells ranges of counts apart. -/
theorem length_arrayHeader (n : Nat) : (Wire.Canonical.arrayHeader n).length =
    if n < 16 then 1 else if n < 0x10000 then 3 else 5 := by
  unfold Wire.Canonical.arrayHeader Wire.Canonical.containerHeader
  split_ifs <;> simp

theorem length_binary_bytes (d : Digest) : (Wire.Canonical.binary d.bytes).length = 34 := by
  unfold Wire.Canonical.binary Wire.Canonical.blobHeader
  rw [d.length_bytes, List.length_append, d.length_bytes]
  rfl

theorem length_flatMap_binary (ds : List Digest) :
    (ds.flatMap fun d => Wire.Canonical.binary d.bytes).length = ds.length * 34 := by
  induction ds with
  | nil => rfl
  | cons d ds ih =>
    rw [List.flatMap_cons, List.length_append, length_binary_bytes, ih, List.length_cons]
    omega

theorem binary_bytes_injective {d e : Digest}
    (h : Wire.Canonical.binary d.bytes = Wire.Canonical.binary e.bytes) : d = e := by
  have heq := congrArg (fun b => Field.digest? ⟨b⟩) h
  have hd := Field.digest?_binary d
  have he := Field.digest?_binary e
  exact Option.some.inj (hd.symm.trans (heq.trans he))

theorem flatMap_binary_injective {ds es : List Digest} (hlen : ds.length = es.length)
    (h : (ds.flatMap fun d => Wire.Canonical.binary d.bytes) =
      es.flatMap fun e => Wire.Canonical.binary e.bytes) : ds = es := by
  induction ds generalizing es with
  | nil => exact (List.length_eq_zero_iff.1 hlen.symm).symm
  | cons d ds ih =>
    cases es with
    | nil => cases hlen
    | cons e es =>
      rw [List.flatMap_cons, List.flatMap_cons] at h
      have hhead := (length_binary_bytes d).trans (length_binary_bytes e).symm
      rw [binary_bytes_injective (List.append_inj_left h hhead),
        ih (Nat.succ.inj hlen) (List.append_inj_right h hhead)]

theorem encodeList_of_ne_nil {ds : List Digest} (h : ds ≠ []) : encodeList ds =
    (Wire.Canonical.mapHeader 1 ++ Wire.Canonical.string listKey) ++
      (Wire.Canonical.arrayHeader ds.length ++
        ds.flatMap fun d => Wire.Canonical.binary d.bytes) := by
  unfold encodeList
  rw [if_neg (by rwa [List.isEmpty_iff])]
  simp only [List.append_assoc]

/-- The encoding of a list that is not empty grows with every digest: the length of the header never
shrinks. -/
theorem length_encodeList {ds : List Digest} (h : ds ≠ []) : (encodeList ds).length =
    8 + (if ds.length < 16 then 1 else if ds.length < 0x10000 then 3 else 5) + ds.length * 34 := by
  have hkey : (Wire.Canonical.mapHeader 1 ++ Wire.Canonical.string listKey).length = 8 := rfl
  rw [encodeList_of_ne_nil h, List.length_append, hkey, List.length_append, length_arrayHeader,
    length_flatMap_binary, Nat.add_assoc]

/-- Lists of digests, of whatever length, are encoded differently. -/
theorem encodeList_injective {ds es : List Digest} (h : encodeList ds = encodeList es) :
    ds = es := by
  have hlen := congrArg List.length h
  by_cases hds : ds = [] <;> by_cases hes : es = []
  · rw [hds, hes]
  · subst hds
    rw [length_encodeList hes, show (encodeList []).length = 1 from rfl] at hlen
    omega
  · subst hes
    rw [length_encodeList hds, show (encodeList []).length = 1 from rfl] at hlen
    omega
  · rw [length_encodeList hds, length_encodeList hes] at hlen
    have hlength : ds.length = es.length := by
      split_ifs at hlen <;> omega
    rw [encodeList_of_ne_nil hds, encodeList_of_ne_nil hes, hlength] at h
    exact flatMap_binary_injective hlength (List.append_cancel_left (List.append_cancel_left h))

theorem preimage_injective {ds es : List Digest} (h : preimage ds = preimage es) : ds = es :=
  encodeList_injective (List.append_cancel_left h)

end Group

/-! ## Groups of batches -/

@[simp] theorem Record.preimage_withGroup (r : Record) (g : Digest) :
    (r.withGroup g).preimage = r.preimage :=
  rfl

@[simp] theorem Record.digest_withGroup (r : Record) (g : Digest) :
    (r.withGroup g).digest = r.digest :=
  rfl

@[simp] theorem Group.ofRecords_map_withGroup (records : List Record) (g : Digest) :
    Group.ofRecords (records.map fun r => r.withGroup g) = Group.ofRecords records := by
  simp only [Group.ofRecords, List.map_map, Function.comp_def, Record.digest_withGroup]

/-- A batch is consistent exactly if no group is claimed in it but its own. -/
theorem Group.consistent_iff {records : List Record} : Group.consistent records = true ↔
    ∀ r ∈ records, r.group = Digest.zero ∨ r.group = Group.ofRecords records := by
  have hstamped (r : Record) : (!r.isStamped) = true ↔ r.group = Digest.zero := by
    rw [Bool.not_eq_true', Record.isStamped_eq_false_iff]
  unfold Group.consistent
  dsimp only
  split_ifs with hall
  · rw [List.all_eq_true] at hall
    exact iff_of_true rfl fun r hr => .inl ((hstamped r).1 (hall r hr))
  · simp only [List.all_eq_true, Bool.or_eq_true, hstamped, decide_eq_true_eq]

theorem Group.ofRecords_eq_of_consistent {records : List Record} {r : Record}
    (h : Group.consistent records = true) (hr : r ∈ records) (hzero : r.group ≠ Digest.zero) :
    Group.ofRecords records = r.group :=
  ((consistent_iff.1 h r hr).resolve_left hzero).symm

namespace Batch

variable {limits : Limits} {batch : Batch} {g : Digest} {v : Bool}

theorem verify_eq_ok_iff : batch.verify limits = .ok v ↔
    ∃ records, batch.Decodes limits records ∧ Group.consistent records = v := by
  unfold verify
  simp only [map_eq_ok_iff, records_eq_ok_iff]

theorem verify_of_decodes {records : List Record} (h : batch.Decodes limits records) :
    batch.verify limits = .ok (Group.consistent records) :=
  verify_eq_ok_iff.2 ⟨records, h, rfl⟩

theorem group_eq_ok_iff : batch.group limits = .ok g ↔
    ∃ records, batch.Decodes limits records ∧ Group.ofRecords records = g := by
  unfold group
  simp only [map_eq_ok_iff, records_eq_ok_iff]

theorem group_of_decodes {records : List Record} (h : batch.Decodes limits records) :
    batch.group limits = .ok (Group.ofRecords records) :=
  group_eq_ok_iff.2 ⟨records, h, rfl⟩

end Batch

/-! ## Small groups

Groups of a record with one field and of one with none, by themselves and together.
-/

theorem Batch.decodes_oneField {limits : Limits} (hdepth : 0 < limits.maxDepth)
    (hmax : 0 < limits.maxEntries) :
    Batch.Decodes limits [⟨[0x81, 0xa1, 0x61, 0x01]⟩] [Record.oneField] :=
  .cons (Record.decode_oneField hdepth hmax) .nil

theorem Batch.decodes_pair :
    Batch.Decodes {} [⟨[0x81, 0xa1, 0x61, 0x01]⟩, ⟨[0x80]⟩] [Record.oneField, Record.empty] :=
  .cons (Record.decode_oneField (by decide) (by decide))
    (.cons (Record.decode_empty (by decide)) .nil)

set_option maxRecDepth 100000 in
theorem Record.digest_oneField : Record.oneField.digest = ⟨[
    0x1b, 0xd1, 0x5e, 0xf6, 0xab, 0xab, 0x9f, 0x97, 0xf3, 0x37, 0x51, 0x6b, 0x9d, 0x76, 0x0c, 0x11,
    0x7b, 0xfe, 0x99, 0x80, 0x93, 0x3f, 0x20, 0x69, 0xf9, 0x36, 0x5d, 0xec, 0xc7, 0x6a, 0x94, 0x91],
    rfl⟩ := by
  unfold Record.digest
  rw [Sha512.hash256_of_one_block (by decide)]
  decide +kernel

set_option maxRecDepth 100000 in
theorem Record.digest_empty : Record.empty.digest = ⟨[
    0x4a, 0x23, 0xff, 0x65, 0xc8, 0x45, 0x1a, 0xdd, 0xd6, 0xec, 0xec, 0x0a, 0xd8, 0xfe, 0xfa, 0x5b,
    0x8d, 0x80, 0x85, 0x9b, 0x4c, 0x0e, 0x61, 0x35, 0xfd, 0x68, 0xbf, 0xa5, 0x2c, 0x89, 0x93, 0x1e],
    rfl⟩ := by
  unfold Record.digest
  rw [Sha512.hash256_of_one_block (by decide)]
  decide +kernel

namespace Group

set_option maxRecDepth 100000 in
theorem ofRecords_oneField : ofRecords [Record.oneField] = ⟨[
    0x9e, 0xa4, 0xcd, 0x83, 0xc0, 0xc5, 0x37, 0xe1, 0x49, 0x53, 0x1d, 0xd7, 0x53, 0xb1, 0xc6, 0xdf,
    0x8d, 0x4c, 0x21, 0x93, 0xa0, 0x8e, 0x95, 0x1a, 0x5a, 0x92, 0x02, 0x48, 0xee, 0xb3, 0xb7, 0x6d],
    rfl⟩ := by
  unfold ofRecords ofDigests
  rw [List.map_singleton, Record.digest_oneField, Sha512.hash256_of_one_block (by decide)]
  decide +kernel

set_option maxRecDepth 100000 in
theorem ofRecords_oneField_twice : ofRecords [Record.oneField, Record.oneField] = ⟨[
    0x3a, 0x18, 0xe5, 0xd1, 0x0f, 0xa7, 0x3c, 0x23, 0xd9, 0xb0, 0x2d, 0xbf, 0xda, 0xd3, 0xd0, 0x7c,
    0x26, 0x36, 0xf0, 0x5a, 0xe2, 0x12, 0x75, 0xd8, 0xb4, 0x12, 0xbe, 0x8d, 0x76, 0x14, 0x64, 0x0a],
    rfl⟩ := by
  unfold ofRecords ofDigests
  rw [List.map_cons, List.map_singleton, Record.digest_oneField,
    Sha512.hash256_of_one_block (by decide)]
  decide +kernel

set_option maxRecDepth 100000 in
theorem ofRecords_pair : ofRecords [Record.oneField, Record.empty] = ⟨[
    0xfd, 0xdf, 0x79, 0x73, 0x9a, 0xfc, 0x0f, 0x2f, 0xe0, 0xdb, 0x76, 0xe4, 0x8f, 0x0b, 0xa5, 0xf1,
    0x1a, 0x0b, 0xcc, 0x35, 0xbe, 0x6d, 0x1a, 0x37, 0x39, 0x92, 0x85, 0x5b, 0x02, 0x97, 0x29, 0xcf],
    rfl⟩ := by
  unfold ofRecords ofDigests
  rw [List.map_cons, List.map_singleton, Record.digest_oneField, Record.digest_empty,
    Sha512.hash256_of_one_block (by decide)]
  decide +kernel

set_option maxRecDepth 100000 in
/-- The list of three digests fills a block and goes on in a second one. -/
theorem ofRecords_pair_oneField :
    ofRecords [Record.oneField, Record.empty, Record.oneField] = ⟨[
    0x26, 0xf2, 0x86, 0x71, 0x9f, 0x52, 0x66, 0xe5, 0x79, 0xc0, 0x43, 0xa3, 0xe5, 0xc7, 0x5a, 0x80,
    0xda, 0x53, 0x3d, 0xc5, 0x22, 0xea, 0x33, 0x59, 0xec, 0x1a, 0xc5, 0x61, 0x12, 0x65, 0xf5, 0xda],
    rfl⟩ := by
  unfold ofRecords ofDigests
  rw [List.map_cons, List.map_cons, List.map_singleton, Record.digest_oneField,
    Record.digest_empty, Sha512.hash256_of_two_blocks (by decide)]
  decide +kernel

theorem ofRecords_pair_ne_zero : ofRecords [Record.oneField, Record.empty] ≠ Digest.zero := by
  rw [ofRecords_pair]
  decide

theorem ofRecords_oneField_ne : ofRecords [Record.oneField] ≠ Digest.zero ∧
    ofRecords [Record.oneField] ≠ Record.oneField.digest := by
  rw [ofRecords_oneField, Record.digest_oneField]
  decide

theorem ofRecords_oneField_twice_ne :
    ofRecords [Record.oneField, Record.oneField] ≠ Digest.zero ∧
      ofRecords [Record.oneField] ≠ ofRecords [Record.oneField, Record.oneField] := by
  rw [ofRecords_oneField, ofRecords_oneField_twice]
  decide

end Group

end AtomicGroups
