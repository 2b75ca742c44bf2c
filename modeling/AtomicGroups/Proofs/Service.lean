import Mathlib
import AtomicGroups.Proofs.Group.Stamping
import AtomicGroups.Proofs.Segment.Faults

/-!
# Batches that cannot be read

Whatever is asked about a batch, the records are read one by one from the front.  So if a transaction
is no record, all answers name the first one that is none (`Service.agree_on_malformed`).  Only where
runs are looked for, a fault in front of it may be found first.
-/

namespace AtomicGroups

/-! ## Batches up to the first transaction that is no record -/

namespace Batch

variable {limits : Limits} {batch : Batch} {records : List Record} {maxGroup : Nat}
  {tx : Transaction} {cause : DecodeError}

/-- What is asked of all records of a batch names the transaction that is none. -/
theorem eq_error_of_readFrom {e : BatchError} (h : readFrom limits 0 batch = (records, some e)) :
    batch.group limits = .error e ∧ batch.stamp limits = .error e ∧
      batch.verify limits = .error e := by
  have hrecords := records_eq_error h
  unfold group stamp verify
  rw [hrecords]
  exact ⟨rfl, rfl, rfl⟩

/-- Runs are not found either, for that reason or for a fault of the runs in front. -/
theorem exists_segment_eq_error
    (h : readFrom limits 0 batch = (records, some (.malformed records.length cause))) :
    ∃ e, batch.segment limits maxGroup = .error e ∧ (e = .malformed records.length cause ∨
      ∃ fault, e = .grouping fault ∧ fault.range.1 < fault.range.2 ∧
        fault.range.2 ≤ records.length) := by
  cases hhead : (faults maxGroup (records.length = batch.length) (maximalRuns records)).head? with
  | some fault =>
    have hmem := List.mem_of_head? hhead
    refine ⟨.grouping fault, (segment_eq_error_iff_of_readFrom h).2 ?_,
      .inr ⟨fault, rfl, range_lt_of_mem_faults hmem, (of_mem_faults hmem).1⟩⟩
    rw [hhead]
  | none =>
    refine ⟨_, (segment_eq_error_iff_of_readFrom h).2 ?_, .inl rfl⟩
    rw [hhead]
    exact (readFrom_eq_some_iff h).1 rfl

/-- No transaction of a batch that decodes is at fault. -/
theorem Decodes.segment_ne_malformed (h : batch.Decodes limits records) (i : Nat) :
    batch.segment limits maxGroup ≠ .error (.malformed i cause) := by
  intro hsegment
  rw [segment_eq_error_iff_of_readFrom (readFrom_eq_none_iff.2 h)] at hsegment
  split at hsegment
  · cases hsegment
  · obtain ⟨tx, -, htx, -⟩ := hsegment
    have hlt := (List.getElem?_eq_some_iff.1 htx).1
    exact absurd h.length_eq hlt.ne'

end Batch

/-! ## What a service answers -/

namespace Service

variable {s : Service} {batch : Batch}

theorem group_of_check (h : s.checkGroup batch = .ok ()) : s.group batch = batch.group s.limits := by
  unfold group
  rw [h]
  rfl

theorem stamp_of_check (h : s.checkGroup batch = .ok ()) : s.stamp batch = batch.stamp s.limits := by
  unfold stamp
  rw [h]
  rfl

theorem segment_of_le (h : batch.length ≤ s.config.maxBatch) :
    s.segment batch = batch.segment s.limits s.config.maxGroup := by
  unfold segment
  rw [checkBatch_eq_ok_iff.2 h]
  rfl

theorem indices_eq_error_iff {e : BatchError} :
    s.indices batch = .error e ↔ s.segment batch = .error e :=
  map_eq_error_iff

/-- If a transaction of a batch within the limits is no record, every answer names the first such
transaction with its cause, and the answer for it alone has the same cause; only runs may be refused
before, for a fault in front of it.  If all transactions are records, no answer says otherwise: the
batch has a group, which is what is stamped on it. -/
theorem agree_on_malformed (s : Service) (batch : Batch) (hne : batch ≠ [])
    (hmaxBatch : batch.length ≤ s.config.maxBatch) (hmaxGroup : batch.length ≤ s.config.maxGroup) :
    (∀ m tx cause, batch[m]? = some tx → tx.record s.limits = .error cause →
      (∀ tx ∈ batch.take m, ∃ r, tx.record s.limits = .ok r) →
      s.group batch = .error (.malformed m cause) ∧ s.stamp batch = .error (.malformed m cause) ∧
        s.verify batch = .error (.malformed m cause) ∧ s.digest tx = .error (.malformed 0 cause) ∧
        ∃ e, s.segment batch = .error e ∧ s.indices batch = .error e ∧ (e = .malformed m cause ∨
          ∃ fault, e = .grouping fault ∧ fault.range.1 < fault.range.2 ∧ fault.range.2 ≤ m)) ∧
    ((∀ tx ∈ batch, ∃ r, tx.record s.limits = .ok r) →
      (∀ tx ∈ batch, ∃ d, s.digest tx = .ok d) ∧
      (∀ i cause, s.segment batch ≠ .error (.malformed i cause) ∧
        s.indices batch ≠ .error (.malformed i cause)) ∧
      (∃ v, s.verify batch = .ok v) ∧
      ∃ g records, s.group batch = .ok g ∧
        List.Forall₂ (fun tx r => tx.record s.limits = .ok r) batch records ∧
        s.stamp batch = .ok (records.map fun r => (r.withGroup g).toTransaction) ∧
        ∀ r ∈ records, ∀ limits r',
          (r.withGroup g).toTransaction.record limits = .ok r' → r'.group = g) := by
  have hcheck : s.checkGroup batch = .ok () := checkGroup_eq_ok_iff.2 ⟨hne, hmaxBatch, hmaxGroup⟩
  simp only [indices_eq_error_iff, ne_eq, and_self]
  rw [group_of_check hcheck, stamp_of_check hcheck, verify_of_le hmaxBatch, segment_of_le hmaxBatch]
  constructor
  · intro m tx cause htx hcause hbefore
    -- all answers are settled by what is read in front of this transaction
    obtain ⟨records, rfl, hread⟩ := Batch.exists_readFrom_of_error htx hcause hbefore
    obtain ⟨hgroup, hstamp, hverify⟩ := Batch.eq_error_of_readFrom hread
    obtain ⟨e, hsegment, he⟩ := Batch.exists_segment_eq_error hread
    refine ⟨hgroup, hstamp, hverify, ?_, e, hsegment, hsegment, he⟩
    unfold digest Transaction.digest
    rw [hcause]
    rfl
  · intro hall
    obtain ⟨records, hdec⟩ := Batch.exists_decodes hall
    refine ⟨fun tx htx => ?_, fun i cause => hdec.segment_ne_malformed i,
      ⟨_, Batch.verify_of_decodes hdec⟩, Group.ofRecords records, records,
      Batch.group_eq_ok_iff.2 ⟨records, hdec, rfl⟩, hdec,
      Batch.stamp_eq_ok_iff.2 ⟨records, hdec, rfl⟩, fun r hr limits r' hr' => ?_⟩
    · obtain ⟨r, hr⟩ := hall tx htx
      unfold digest Transaction.digest
      rw [hr]
      exact ⟨_, rfl⟩
    · exact hdec.group_eq_of_mem_stamped (Batch.mem_stamped_iff.2 ⟨r, hr, rfl⟩) hr'

/-- A record with one field, alone and in front of a transaction without bytes. -/
theorem agree_on_malformed_oneField :
    let tx : Transaction := ⟨[0x81, 0xa1, 0x61, 0x01]⟩
    ∃ cause, standard.digest ⟨[]⟩ = .error (.malformed 0 cause) ∧
      standard.group [tx, ⟨[]⟩] = .error (.malformed 1 cause) ∧
      standard.stamp [tx, ⟨[]⟩] = .error (.malformed 1 cause) ∧
      standard.verify [tx, ⟨[]⟩] = .error (.malformed 1 cause) ∧
      ∃ g, standard.group [tx] = .ok g ∧
        standard.stamp [tx] = .ok [(Record.oneField.withGroup g).toTransaction] := by
  intro tx
  have hdec : Batch.Decodes standard.limits [tx] [Record.oneField] :=
    Batch.decodes_oneField (by decide) (by decide)
  obtain ⟨cause, hcause⟩ : ∃ cause, Transaction.record standard.limits ⟨[]⟩ = .error cause :=
    ⟨_, rfl⟩
  have hrecords : ∀ tx' ∈ [tx], ∃ r, tx'.record standard.limits = .ok r := fun tx' htx =>
    hdec.exists_record htx
  obtain ⟨hfault, -⟩ := agree_on_malformed standard [tx, ⟨[]⟩] (List.cons_ne_nil _ _) (by decide)
    (by decide)
  obtain ⟨-, hfine⟩ := agree_on_malformed standard [tx] (List.cons_ne_nil _ _) (by decide)
    (by decide)
  obtain ⟨hgroup, hstamp, hverify, hdigest, -⟩ := hfault 1 ⟨[]⟩ cause rfl hcause hrecords
  obtain ⟨-, -, -, g, records, hg, hdec', hout, -⟩ := hfine hrecords
  obtain rfl := hdec.unique hdec'
  exact ⟨cause, hdigest, hgroup, hstamp, hverify, g, hg, hout⟩

end Service

end AtomicGroups
