import Mathlib
import AtomicGroups.Proofs.Group.Composition
import AtomicGroups.Proofs.Segment.Accepted
import AtomicGroups.Service

/-!
# Stamped batches

A stamp adds an entry to a record that had no group, and there has to be room for it.  A batch that
was stamped is consistent and cut into one run exactly if each of its records has room
(`Batch.verify_stamped_iff`, `Batch.segment_stamped`); a record with as many fields as are allowed
can be stamped, but not read again.
-/

namespace AtomicGroups

/-- The canonical transactions of records that were all stamped with one group. -/
def stamped (g : Digest) (records : List Record) : Batch :=
  records.map fun r => (r.withGroup g).toTransaction

/-- Whether a record can be read again once a group was stamped on it. -/
def HasRoom (limits : Limits) (g : Digest) (r : Record) : Prop :=
  (r.withGroup g).entries.size ≤ limits.maxEntries ∧ (r.withGroup g).entries.size < 2 ^ 32

namespace Batch

variable {limits : Limits} {maxGroup : Nat} {batch out : Batch} {g : Digest} {r : Record}
  {records : List Record}

theorem Decodes.fits (h : Decodes limits batch records) (hr : r ∈ records) :
    r.FieldsFit limits ∧ r.entries.size ≤ limits.maxEntries ∧ r.entries.size < 2 ^ 32 := by
  obtain ⟨tx, -, htx⟩ := h.exists_of_mem hr
  exact Record.fits_of_decode htx

theorem Decodes.fieldsFit (h : Decodes limits batch records) : ∀ r ∈ records, r.FieldsFit limits :=
  fun _ hr => (h.fits hr).1

theorem stamp_eq_ok_iff : batch.stamp limits = .ok out ↔
    ∃ records, Decodes limits batch records ∧ out = stamped (Group.ofRecords records) records := by
  unfold stamp
  simp only [bind_eq_ok_iff, records_eq_ok_iff]
  constructor
  · rintro ⟨records, hdec, hout⟩
    cases hout
    exact ⟨records, hdec, rfl⟩
  · rintro ⟨records, hdec, rfl⟩
    exact ⟨records, hdec, rfl⟩

theorem stamp_of_decodes (h : Decodes limits batch records) :
    batch.stamp limits = .ok (stamped (Group.ofRecords records) records) :=
  stamp_eq_ok_iff.2 ⟨records, h, rfl⟩

/-- Stamped records are read again if there is room for the stamps. -/
theorem decodes_stamped (hfit : ∀ r ∈ records, r.FieldsFit limits)
    (hroom : ∀ r ∈ records, HasRoom limits g r) :
    Decodes limits (stamped g records) (records.map fun r => r.withGroup g) := by
  unfold Decodes stamped
  rw [List.forall₂_map_left_iff, List.forall₂_map_right_iff, List.forall₂_same]
  intro r hr
  exact ((hfit r hr).withGroup g).decode_encode_eq_ok_iff.2 ⟨rfl, hroom r hr⟩

theorem mem_stamped_iff {tx : Transaction} :
    tx ∈ stamped g records ↔ ∃ r ∈ records, (r.withGroup g).toTransaction = tx :=
  List.mem_map

/-- They are not read again otherwise. -/
theorem hasRoom_of_mem_stamped (hfit : ∀ r ∈ records, r.FieldsFit limits)
    (h : ∀ tx ∈ stamped g records, ∃ s, tx.record limits = .ok s) (hr : r ∈ records) :
    HasRoom limits g r := by
  obtain ⟨s, hs⟩ := h _ (mem_stamped_iff.2 ⟨r, hr, rfl⟩)
  exact (((hfit r hr).withGroup g).decode_encode_eq_ok_iff.1 hs).2

/-- Stamped transactions are read, if at all, as records with the group stamped on them. -/
theorem Decodes.group_eq_of_mem_stamped {limits' : Limits} {tx : Transaction}
    (h : Decodes limits batch records) (htx : tx ∈ stamped g records)
    (hr : tx.record limits' = .ok r) : r.group = g := by
  obtain ⟨s, hs, rfl⟩ := mem_stamped_iff.1 htx
  rw [((h.fieldsFit s hs).withGroup g).eq_of_decode_encode hr]
  rfl

/-- Stamped records all claim the group that was stamped on them. -/
theorem claim_map_withGroup (h : records ≠ []) (g : Digest) :
    Claim g (records.map fun r => r.withGroup g) := by
  refine ⟨by simpa using h, fun s hs => ?_⟩
  obtain ⟨r, -, rfl⟩ := List.mem_map.1 hs
  rfl

/-- There is always room to stamp no group. -/
theorem hasRoom_zero (h : Decodes limits batch records) (hr : r ∈ records) :
    HasRoom limits Digest.zero r := by
  obtain ⟨-, hmax, hcount⟩ := h.fits hr
  have hle := r.size_le_size_entries
  have hsize : (r.withGroup Digest.zero).entries.size = r.size := r.size_entries_withoutGroup
  unfold HasRoom
  rw [hsize]
  omega

theorem hasRoom_iff (hg : g ≠ Digest.zero) :
    HasRoom limits g r ↔ r.size < limits.maxEntries ∧ r.size + 1 < 2 ^ 32 := by
  have hstamped : (r.withGroup g).isStamped = true := Record.isStamped_iff.2 hg
  unfold HasRoom
  rw [Record.size_entries, hstamped]
  rfl

/-- Where one more entry is allowed, there is room for whatever group. -/
theorem hasRoom_of_lt (hmax : r.size < limits.maxEntries) (hcount : r.size + 1 < 2 ^ 32)
    (g : Digest) : HasRoom limits g r := by
  have hsize := r.size_entries_withGroup_le g
  exact ⟨hsize.trans hmax, hsize.trans_lt hcount⟩

/-- A batch stamped with its group is consistent exactly if there is room for the stamps. -/
theorem verify_stamped_iff (h : Decodes limits batch records) :
    (stamped (Group.ofRecords records) records).verify limits = .ok true ↔
      ∀ r ∈ records, HasRoom limits (Group.ofRecords records) r := by
  rw [verify_eq_ok_iff]
  constructor
  · rintro ⟨again, hagain, -⟩ r hr
    exact hasRoom_of_mem_stamped h.fieldsFit (fun _ htx => hagain.exists_record htx) hr
  · intro hroom
    refine ⟨_, decodes_stamped h.fieldsFit hroom,
      Group.consistent_iff.2 fun s hs => .inr ?_⟩
    obtain ⟨r, -, rfl⟩ := List.mem_map.1 hs
    exact (Group.ofRecords_map_withGroup records _).symm

/-- A batch stamped with a group that is not zero is cut into one run. -/
theorem segment_stamped (h : Decodes limits batch records) (hne : records ≠ [])
    (hzero : Group.ofRecords records ≠ Digest.zero) (hmax : records.length ≤ maxGroup)
    (hroom : ∀ r ∈ records, HasRoom limits (Group.ofRecords records) r) :
    (stamped (Group.ofRecords records) records).segment limits maxGroup =
      .ok (Assignment.ofRuns [⟨0, 0, records.length, Group.ofRecords records⟩]) := by
  have hdec := decodes_stamped h.fieldsFit hroom
  rw [segment_of_claim hdec (claim_map_withGroup hne _) hzero, Group.ofRecords_map_withGroup,
    List.length_map]
  exact ⟨⟨hmax, rfl⟩, rfl⟩

theorem hasRoom_oneField (g : Digest) : HasRoom {} g Record.oneField :=
  hasRoom_of_lt (by decide) (by decide) g

theorem hasRoom_pair (g : Digest) : ∀ r ∈ [Record.oneField, Record.empty], HasRoom {} g r := by
  intro r hr
  rcases List.mem_pair.1 hr with rfl | rfl
  · exact hasRoom_oneField g
  · exact hasRoom_of_lt (by decide) (by decide) g

theorem decodes_oneField_twice :
    Decodes {} [⟨[0x81, 0xa1, 0x61, 0x01]⟩, ⟨[0x81, 0xa1, 0x61, 0x01]⟩]
      [Record.oneField, Record.oneField] :=
  have hone := @decodes_oneField {} (by decide) (by decide)
  .cons (List.forall₂_cons.1 hone).1 hone

theorem claim_pair (g : Digest) : Claim g [Record.oneField.withGroup g, Record.empty.withGroup g] :=
  claim_map_withGroup (List.cons_ne_nil Record.oneField [Record.empty]) g

theorem decodes_stamped_pair (g : Digest) :
    Decodes {} (stamped g [Record.oneField, Record.empty])
      [Record.oneField.withGroup g, Record.empty.withGroup g] :=
  decodes_stamped decodes_pair.fieldsFit (hasRoom_pair g)

theorem decodes_stamped_pair_concat (g : Digest) :
    Decodes {} (stamped g [Record.oneField, Record.empty] ++ [⟨[0x81, 0xa1, 0x61, 0x01]⟩])
      ([Record.oneField.withGroup g, Record.empty.withGroup g] ++ [Record.oneField]) :=
  List.rel_append (decodes_stamped_pair g) (decodes_oneField (by decide) (by decide))

/-- A stamped pair in front of a transaction that claims no group. -/
theorem segment_stamped_pair_concat (hmax : 2 ≤ maxGroup) :
    let g := Group.ofRecords [Record.oneField, Record.empty]
    let tx : Transaction := ⟨[0x81, 0xa1, 0x61, 0x01]⟩
    (stamped g [Record.oneField, Record.empty] ++ [tx]).segment {} maxGroup =
      .ok (Assignment.ofRuns [⟨0, 0, 2, g⟩, ⟨1, 2, 3, Digest.zero⟩]) := by
  intro g tx
  rw [segment_of_decodes (decodes_stamped_pair_concat g),
    (claim_pair g).maximalRuns_concat Group.ofRecords_pair_ne_zero rfl]
  refine ⟨fun members hmembers => ?_, ?_, ?_⟩
  · rcases List.mem_pair.1 hmembers with rfl | rfl
    · exact .inr ⟨hmax, Group.ofRecords_map_withGroup [Record.oneField, Record.empty] g⟩
    · exact .inl rfl
  · exact List.pairwise_pair.2 fun heq => heq
  · rfl

end Batch

/-! ## Under a configuration -/

namespace Service

variable {config : Config} {s : Service} {batch out : Batch}

theorem ofConfig_eq_ok (h : ofConfig config = .ok s) : s = ⟨config, config.limits⟩ := by
  unfold ofConfig withLimits at h
  split at h
  · cases h
    rfl
  · cases h

theorem checkBatch_eq_ok_iff :
    s.checkBatch batch = .ok () ↔ batch.length ≤ s.config.maxBatch := by
  unfold checkBatch
  split_ifs with h
  · simp [Nat.not_le.2 h]
  · simp [Nat.le_of_not_lt h]

theorem checkGroup_eq_ok_iff : s.checkGroup batch = .ok () ↔
    batch ≠ [] ∧ batch.length ≤ s.config.maxBatch ∧ batch.length ≤ s.config.maxGroup := by
  unfold checkGroup
  by_cases hempty : batch.isEmpty
  · rw [if_pos hempty]
    constructor
    · intro h
      cases h
    · rintro ⟨hne, -⟩
      exact absurd (List.isEmpty_iff.1 hempty) hne
  · rw [if_neg hempty]
    dsimp only
    rw [List.isEmpty_iff] at hempty
    rw [check_bind_eq_ok_iff, checkBatch_eq_ok_iff]
    split_ifs with hmax
    · simp [Nat.not_le.2 hmax]
    · simp [hempty, Nat.le_of_not_lt hmax, pure, Except.pure]

theorem stamp_eq_ok_iff : s.stamp batch = .ok out ↔
    s.checkGroup batch = .ok () ∧ batch.stamp s.limits = .ok out := by
  unfold stamp
  exact check_bind_eq_ok_iff

theorem verify_of_le (h : batch.length ≤ s.config.maxBatch) :
    s.verify batch = batch.verify s.limits := by
  unfold verify
  rw [checkBatch_eq_ok_iff.2 h]
  rfl

theorem indices_of_le (h : batch.length ≤ s.config.maxBatch) :
    s.indices batch = Assignment.indices <$> batch.segment s.limits s.config.maxGroup := by
  unfold indices segment
  rw [checkBatch_eq_ok_iff.2 h]
  rfl

/-- What a service gives for a batch that it stamps: as many transactions, all with the group of the
batch. -/
theorem eq_stamped_of_stamp (hout : s.stamp batch = .ok out) {records : List Record}
    (hdec : batch.Decodes s.limits records) :
    out = stamped (Group.ofRecords records) records ∧ records ≠ [] ∧
      out.length = records.length ∧ out.length ≤ s.config.maxBatch ∧
      out.length ≤ s.config.maxGroup := by
  obtain ⟨hcheck, hout⟩ := stamp_eq_ok_iff.1 hout
  obtain ⟨hne, hmaxBatch, hmaxGroup⟩ := checkGroup_eq_ok_iff.1 hcheck
  obtain ⟨records', hdec', rfl⟩ := Batch.stamp_eq_ok_iff.1 hout
  obtain rfl := hdec.unique hdec'
  have hlen : (stamped (Group.ofRecords records) records).length = records.length := by
    rw [stamped, List.length_map]
  rw [hdec.length_eq, ← hlen] at hmaxBatch hmaxGroup
  exact ⟨rfl, hdec.ne_nil hne, hlen, hmaxBatch, hmaxGroup⟩

/-- What a service has stamped is consistent exactly if there is room for the stamps. -/
theorem verify_stamp_iff (hout : s.stamp batch = .ok out) {records : List Record}
    (hdec : batch.Decodes s.limits records) : s.verify out = .ok true ↔
      ∀ r ∈ records, HasRoom s.limits (Group.ofRecords records) r := by
  obtain ⟨rfl, -, -, hmax, -⟩ := eq_stamped_of_stamp hout hdec
  rw [verify_of_le hmax, Batch.verify_stamped_iff hdec]

/-- If there is, it is cut into one run. -/
theorem indices_stamp (hout : s.stamp batch = .ok out) {records : List Record}
    (hdec : batch.Decodes s.limits records) (hzero : Group.ofRecords records ≠ Digest.zero)
    (hroom : ∀ r ∈ records, HasRoom s.limits (Group.ofRecords records) r) :
    s.indices out = .ok (Array.replicate out.length 0) := by
  obtain ⟨hout, hne, hlen, hmaxBatch, hmaxGroup⟩ := eq_stamped_of_stamp hout hdec
  rw [indices_of_le hmaxBatch, hlen]
  rw [hlen] at hmaxGroup
  rw [hout, Batch.segment_stamped hdec hne hzero hmaxGroup hroom]
  exact congrArg Except.ok (Assignment.indices_ofRuns_singleton ..)

/-- A batch that a service has stamped passes its checks exactly if each record that gets an entry
for its group has room for it. -/
theorem stamp_verifies_iff {g : Digest} (hs : ofConfig config = .ok s)
    (hout : s.stamp batch = .ok out) (hg : s.group batch = .ok g) :
    s.verify out = .ok true ∧
        (g ≠ Digest.zero → s.indices out = .ok (Array.replicate out.length 0)) ↔
      g = Digest.zero ∨ ∀ tx ∈ batch, ∃ r, tx.record config.limits = .ok r ∧
        r.size < config.limits.maxEntries ∧ r.size + 1 < 2 ^ 32 := by
  obtain rfl := ofConfig_eq_ok hs
  unfold group at hg
  rw [check_bind_eq_ok_iff] at hg
  obtain ⟨records, hdec, rfl⟩ := Batch.group_eq_ok_iff.1 hg.2
  rw [verify_stamp_iff hout hdec]
  by_cases hzero : Group.ofRecords records = Digest.zero
  · refine ⟨fun _ => .inl hzero, fun _ => ⟨fun r hr => ?_, fun hne => absurd hzero hne⟩⟩
    rw [hzero]
    exact Batch.hasRoom_zero hdec hr
  constructor
  · rintro ⟨hroom, -⟩
    refine .inr fun tx htx => ?_
    obtain ⟨position, hposition⟩ := List.getElem?_of_mem htx
    obtain ⟨r, hr, hdecode⟩ := hdec.getElem? hposition
    exact ⟨r, hdecode, (Batch.hasRoom_iff hzero).1 (hroom r (List.mem_of_getElem? hr))⟩
  · rintro (h | h)
    · exact absurd h hzero
    have hroom : ∀ r ∈ records, HasRoom config.limits (Group.ofRecords records) r := by
      intro r hr
      obtain ⟨tx, htx, hdecode⟩ := hdec.exists_of_mem hr
      obtain ⟨r', hdecode', hsize⟩ := h tx htx
      rw [hdecode] at hdecode'
      cases hdecode'
      exact (Batch.hasRoom_iff hzero).2 hsize
    exact ⟨hroom, fun _ => indices_stamp hout hdec hzero hroom⟩

/-! ## A record with one field, stamped -/

theorem stamp_oneField (hcheck : s.checkGroup [⟨[0x81, 0xa1, 0x61, 0x01]⟩] = .ok ())
    (hdepth : 0 < s.limits.maxDepth) (hmax : 0 < s.limits.maxEntries) :
    s.stamp [⟨[0x81, 0xa1, 0x61, 0x01]⟩] =
      .ok (stamped (Group.ofRecords [Record.oneField]) [Record.oneField]) :=
  stamp_eq_ok_iff.2 ⟨hcheck, Batch.stamp_eq_ok_iff.2 ⟨_, Batch.decodes_oneField hdepth hmax, rfl⟩⟩

/-- With the standard configuration there is room for a second entry. -/
theorem stamp_verifies_oneField : ∃ s out, ofConfig {} = .ok s ∧
    s.stamp [⟨[0x81, 0xa1, 0x61, 0x01]⟩] = .ok out ∧ s.verify out = .ok true ∧
    s.indices out = .ok (Array.replicate out.length 0) := by
  have hzero := Group.ofRecords_oneField_ne.1
  have hs : ofConfig {} = .ok standard := rfl
  have hcheck : standard.checkGroup [⟨[0x81, 0xa1, 0x61, 0x01]⟩] = .ok () := rfl
  have hdec : Batch.Decodes standard.limits [⟨[0x81, 0xa1, 0x61, 0x01]⟩] [Record.oneField] :=
    Batch.decodes_oneField (by decide) (by decide)
  have hout := stamp_oneField hcheck (by decide) (by decide)
  have hg : standard.group [⟨[0x81, 0xa1, 0x61, 0x01]⟩] =
      .ok (Group.ofRecords [Record.oneField]) :=
    check_bind_eq_ok_iff.2 ⟨hcheck, Batch.group_eq_ok_iff.2 ⟨_, hdec, rfl⟩⟩
  obtain ⟨hverify, hindices⟩ := (stamp_verifies_iff hs hout hg).2 (.inr fun tx htx => by
    obtain rfl := List.mem_singleton.1 htx
    cases hdec with
    | cons hdecode _ => exact ⟨_, hdecode, by decide, by decide⟩)
  exact ⟨_, _, hs, hout, hverify, hindices hzero⟩

/-- Where one entry is all that is allowed, the record is stamped, but then refused. -/
theorem stamp_not_verified : ∃ s out, ofConfig { limits := { maxEntries := 1 } } = .ok s ∧
    s.stamp [⟨[0x81, 0xa1, 0x61, 0x01]⟩] = .ok out ∧ s.verify out ≠ .ok true := by
  have hout := stamp_oneField (s := ⟨{ limits := { maxEntries := 1 } }, { maxEntries := 1 }⟩)
    rfl (by decide) (by decide)
  refine ⟨_, _, rfl, hout, fun hverify => ?_⟩
  rw [verify_stamp_iff hout (Batch.decodes_oneField (by decide) (by decide))] at hverify
  have hroom := hverify Record.oneField (List.mem_singleton_self _)
  rw [Batch.hasRoom_iff Group.ofRecords_oneField_ne.1] at hroom
  exact absurd hroom.1 (by decide)

end Service

end AtomicGroups
