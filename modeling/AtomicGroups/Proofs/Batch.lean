import Mathlib
import AtomicGroups.Transaction

/-!
# Reading a batch

A batch is read up to its first transaction that is no record (`Batch.readFrom`).  The records of a
batch are those read if there is no such transaction (`Batch.records_eq_ok_iff`).
-/

namespace AtomicGroups

/-- A computation that may fail gives a result exactly if each of its steps does. -/
theorem bind_eq_ok_iff {ε α β : Type} {x : Except ε α} {f : α → Except ε β} {b : β} :
    x >>= f = .ok b ↔ ∃ a, x = .ok a ∧ f a = .ok b := by
  cases x with
  | ok a =>
    change f a = .ok b ↔ _
    simp
  | error e =>
    change Except.error e = .ok b ↔ _
    simp

theorem check_bind_eq_ok_iff {ε β : Type} {x : Except ε Unit} {f : Unit → Except ε β} {b : β} :
    x >>= f = .ok b ↔ x = .ok () ∧ f () = .ok b := by
  rw [bind_eq_ok_iff]
  constructor
  · rintro ⟨⟨⟩, hx, h⟩
    exact ⟨hx, h⟩
  · rintro ⟨hx, h⟩
    exact ⟨(), hx, h⟩

theorem map_eq_ok_iff {ε α β : Type} {x : Except ε α} {f : α → β} {b : β} :
    f <$> x = .ok b ↔ ∃ a, x = .ok a ∧ f a = b := by
  cases x with
  | ok a =>
    change Except.ok (f a) = .ok b ↔ _
    simp
  | error e =>
    change Except.error e = .ok b ↔ _
    simp

theorem map_eq_error_iff {ε α β : Type} {x : Except ε α} {f : α → β} {e : ε} :
    f <$> x = .error e ↔ x = .error e := by
  cases x with
  | ok a =>
    change Except.ok (f a) = .error e ↔ _
    simp
  | error e' =>
    change Except.error e' = .error e ↔ _
    simp

theorem mapError_eq_ok_iff {ε ε' α : Type} {f : ε → ε'} {x : Except ε α} {a : α} :
    x.mapError f = .ok a ↔ x = .ok a := by
  cases x <;> simp [Except.mapError]

namespace Batch

variable (limits : Limits)

/-- Whether each transaction of a batch is decoded to the record at its position. -/
def Decodes (batch : Batch) (records : List Record) : Prop :=
  List.Forall₂ (fun tx r => tx.record limits = .ok r) batch records

/-- The records of the transactions that are one. -/
def decoded (batch : Batch) : List Record :=
  batch.filterMap fun tx => (tx.record limits).toOption

/-- The records from a position on, up to the first transaction that is none, and the error that
names it. -/
def readFrom (position : Nat) : Batch → List Record × Option BatchError
  | [] => ([], none)
  | tx :: later =>
    match recordAt limits position tx with
    | .ok r => (r :: (readFrom (position + 1) later).1, (readFrom (position + 1) later).2)
    | .error e => ([], some e)

variable {limits} {position : Nat} {tx : Transaction} {later batch : Batch} {r : Record}
  {records : List Record} {read : Option BatchError}

theorem recordAt_eq_ok_iff : recordAt limits position tx = .ok r ↔ tx.record limits = .ok r :=
  mapError_eq_ok_iff

theorem recordAt_eq_error_iff {e : BatchError} : recordAt limits position tx = .error e ↔
    ∃ cause, tx.record limits = .error cause ∧ e = .malformed position cause := by
  unfold recordAt
  cases tx.record limits with
  | ok r => simp [Except.mapError]
  | error cause => simp [Except.mapError, eq_comm]

theorem readFrom_of_ok (h : tx.record limits = .ok r) : readFrom limits position (tx :: later) =
    (r :: (readFrom limits (position + 1) later).1,
      (readFrom limits (position + 1) later).2) := by
  rw [readFrom, recordAt_eq_ok_iff.2 h]

theorem readFrom_of_error {e : BatchError} (h : recordAt limits position tx = .error e) :
    readFrom limits position (tx :: later) = ([], some e) := by
  rw [readFrom, h]

theorem Decodes.getElem? (h : Decodes limits batch records) (htx : batch[position]? = some tx) :
    ∃ r, records[position]? = some r ∧ tx.record limits = .ok r := by
  unfold Decodes at h
  induction h generalizing position with
  | nil => cases htx
  | cons hr _ ih =>
    cases position with
    | zero =>
      cases htx
      exact ⟨_, rfl, hr⟩
    | succ position => exact ih htx

theorem Decodes.exists_record (h : Decodes limits batch records) (htx : tx ∈ batch) :
    ∃ r, tx.record limits = .ok r := by
  obtain ⟨position, hposition⟩ := List.getElem?_of_mem htx
  obtain ⟨r, -, hr⟩ := h.getElem? hposition
  exact ⟨r, hr⟩

theorem Decodes.mem (h : Decodes limits batch records) (htx : tx ∈ batch)
    (hr : tx.record limits = .ok r) : r ∈ records := by
  obtain ⟨position, hposition⟩ := List.getElem?_of_mem htx
  obtain ⟨r', hget, hr'⟩ := h.getElem? hposition
  rw [hr] at hr'
  cases hr'
  exact List.mem_of_getElem? hget

theorem Decodes.decoded_eq (h : Decodes limits batch records) : decoded limits batch = records := by
  unfold Decodes at h
  unfold decoded
  induction h with
  | nil => rfl
  | cons htx _ ih => rw [List.filterMap_cons_some (by rw [htx]; rfl), ih]

theorem Decodes.map_record (h : Decodes limits batch records) :
    batch.map (Transaction.record limits) = records.map .ok := by
  unfold Decodes at h
  induction h with
  | nil => rfl
  | cons htx _ ih => rw [List.map_cons, List.map_cons, htx, ih]

theorem exists_decodes (h : ∀ tx ∈ batch, ∃ r, tx.record limits = .ok r) :
    ∃ records, Decodes limits batch records := by
  unfold Decodes
  induction batch with
  | nil => exact ⟨[], .nil⟩
  | cons tx batch ih =>
    obtain ⟨⟨r, hr⟩, hbatch⟩ := List.forall_mem_cons.1 h
    obtain ⟨records, hrecords⟩ := ih hbatch
    exact ⟨r :: records, .cons hr hrecords⟩

/-- A batch decodes in one way only. -/
theorem Decodes.unique {records' : List Record} (h : Decodes limits batch records)
    (h' : Decodes limits batch records') : records = records' := by
  rw [← h.decoded_eq, h'.decoded_eq]

theorem Decodes.ne_nil (h : Decodes limits batch records) (hne : batch ≠ []) : records ≠ [] := by
  rintro rfl
  exact hne (List.length_eq_zero_iff.1 h.length_eq)

/-- The transactions at some positions decode to the records at these positions. -/
theorem Decodes.slice (h : Decodes limits batch records) (start n : Nat) :
    Decodes limits ((batch.drop start).take n) ((records.drop start).take n) :=
  List.forall₂_take _ (List.forall₂_drop _ h)

theorem Decodes.exists_of_mem (h : Decodes limits batch records) (hr : r ∈ records) :
    ∃ tx ∈ batch, tx.record limits = .ok r := by
  unfold Decodes at h
  induction h with
  | nil => cases hr
  | @cons tx r' batch records htx _ ih =>
    rcases List.mem_cons.1 hr with rfl | hr
    · exact ⟨tx, List.mem_cons_self, htx⟩
    · obtain ⟨tx', hmem, htx'⟩ := ih hr
      exact ⟨tx', List.mem_cons_of_mem _ hmem, htx'⟩

/-- What is read are the records in front of the first transaction that is none, which is the
fault. -/
theorem readFrom_eq_iff : readFrom limits position batch = (records, read) ↔
      Decodes limits (batch.take records.length) records ∧
      match read with
      | none => records.length = batch.length
      | some e => ∃ tx cause, batch[records.length]? = some tx ∧
          tx.record limits = .error cause ∧ e = .malformed (position + records.length) cause := by
  unfold Decodes
  induction batch generalizing position records with
  | nil =>
    rw [List.take_nil, List.forall₂_nil_left_iff, readFrom, Prod.mk.injEq, eq_comm]
    refine and_congr_right ?_
    rintro rfl
    cases read <;> simp
  | cons tx later ih =>
    cases h : recordAt limits position tx with
    | ok r =>
      rw [recordAt_eq_ok_iff] at h
      rw [readFrom_of_ok h]
      cases records with
      | nil => cases read <;> simp [h]
      | cons r' records =>
        have hplus : position + 1 + records.length = position + (records.length + 1) := by omega
        rw [Prod.mk.injEq, List.cons.injEq, and_assoc, ← Prod.mk.injEq, Prod.mk.eta, ih]
        cases read <;> simp [h, and_assoc, hplus, eq_comm]
    | error e =>
      obtain ⟨cause, hcause, rfl⟩ := recordAt_eq_error_iff.1 h
      rw [readFrom_of_error h]
      cases records with
      | nil => cases read <;> simp [hcause, eq_comm]
      | cons r' records => simp [hcause]

theorem length_readFrom_le (limits : Limits) (position : Nat) (batch : Batch) :
    (readFrom limits position batch).1.length ≤ batch.length := by
  obtain ⟨hdec, -⟩ := readFrom_eq_iff.1 (Prod.mk.eta (p := readFrom limits position batch)).symm
  have hlength := hdec.length_eq
  rw [List.length_take] at hlength
  omega

/-- Everything is read exactly if every transaction is decoded. -/
theorem readFrom_eq_none_iff :
    readFrom limits position batch = (records, none) ↔ Decodes limits batch records := by
  rw [readFrom_eq_iff]
  constructor
  · rintro ⟨h, hlen⟩
    rwa [hlen, List.take_length] at h
  · intro h
    have hlen : batch.length = records.length := h.length_eq
    rw [← hlen, List.take_length]
    exact ⟨h, rfl⟩

/-- Records that can be read in front of something that cannot are what is read. -/
theorem exists_readFrom_iff :
    (∃ read, readFrom limits position batch = (records, read)) ↔
      Decodes limits (batch.take records.length) records ∧
      ∀ tx r, batch[records.length]? = some tx → tx.record limits ≠ .ok r := by
  constructor
  · rintro ⟨read, h⟩
    obtain ⟨hdec, hread⟩ := readFrom_eq_iff.1 h
    refine ⟨hdec, fun tx r htx hr => ?_⟩
    cases read with
    | none =>
      dsimp only at hread
      simp [hread] at htx
    | some e =>
      obtain ⟨tx', cause, htx', hcause, -⟩ := hread
      rw [htx] at htx'
      cases htx'
      rw [hr] at hcause
      cases hcause
  · rintro ⟨hdec, hnext⟩
    cases htx : batch[records.length]? with
    | none =>
      have hlen := hdec.length_eq
      rw [List.getElem?_eq_none_iff] at htx
      rw [List.length_take] at hlen
      exact ⟨none, readFrom_eq_iff.2 ⟨hdec, by dsimp only; omega⟩⟩
    | some tx =>
      cases hcause : tx.record limits with
      | ok r => exact absurd hcause (hnext tx r htx)
      | error cause => exact ⟨some (.malformed (position + records.length) cause),
          readFrom_eq_iff.2 ⟨hdec, tx, cause, htx, hcause, rfl⟩⟩

/-- A batch is read up to its first transaction that is no record. -/
theorem exists_readFrom_of_error {m : Nat} {cause : DecodeError} (htx : batch[m]? = some tx)
    (hcause : tx.record limits = .error cause)
    (hbefore : ∀ tx ∈ batch.take m, ∃ r, tx.record limits = .ok r) : ∃ records,
      records.length = m ∧ readFrom limits 0 batch = (records, some (.malformed m cause)) := by
  obtain ⟨records, hdec⟩ := exists_decodes hbefore
  have hm : m < batch.length := (List.getElem?_eq_some_iff.1 htx).1
  have hlength : records.length = m := by
    rw [← hdec.length_eq, List.length_take, min_eq_left hm.le]
  refine ⟨records, hlength, readFrom_eq_iff.2 ⟨?_, tx, cause, ?_, hcause, ?_⟩⟩
  · rwa [hlength]
  · rwa [hlength]
  · rw [hlength, Nat.zero_add]

theorem isNone_of_readFrom (h : readFrom limits 0 batch = (records, read)) :
    read.isNone = decide (records.length = batch.length) := by
  obtain ⟨-, hread⟩ := readFrom_eq_iff.1 h
  cases read with
  | none => exact (decide_eq_true hread).symm
  | some e =>
    obtain ⟨tx, -, htx, -⟩ := hread
    have hlt := (List.getElem?_eq_some_iff.1 htx).1
    exact (decide_eq_false hlt.ne).symm

/-- What stands behind the records that were read is the cause if no run has a fault. -/
theorem readFrom_eq_some_iff {e : BatchError} (h : readFrom limits 0 batch = (records, read)) :
    read = some e ↔ ∃ tx cause, batch[records.length]? = some tx ∧
      tx.record limits = .error cause ∧ e = .malformed records.length cause := by
  obtain ⟨-, hread⟩ := readFrom_eq_iff.1 h
  constructor
  · rintro rfl
    simpa using hread
  · rintro ⟨tx, cause, htx, hcause, rfl⟩
    cases read with
    | none =>
      dsimp only at hread
      simp [hread] at htx
    | some e =>
      obtain ⟨tx', cause', htx', hcause', rfl⟩ := hread
      rw [htx] at htx'
      cases htx'
      rw [hcause] at hcause'
      cases hcause'
      rw [Nat.zero_add]

theorem mapM_recordAt (position : Nat) (batch : Batch) :
    (batch.zipIdx position).mapM (fun (tx, position) => recordAt limits position tx) =
      match (readFrom limits position batch).2 with
      | none => .ok (readFrom limits position batch).1
      | some e => .error e := by
  induction batch generalizing position with
  | nil => rfl
  | cons tx later ih =>
    rw [List.zipIdx_cons, List.mapM_cons, ih]
    dsimp only
    cases h : recordAt limits position tx with
    | ok r =>
      rw [readFrom_of_ok (recordAt_eq_ok_iff.1 h)]
      dsimp only
      cases (readFrom limits (position + 1) later).2 <;> rfl
    | error e =>
      rw [readFrom_of_error h]
      rfl

/-- The records of a batch are those that its transactions decode to. -/
theorem records_eq_ok_iff : batch.records limits = .ok records ↔ Decodes limits batch records := by
  unfold Batch.records
  rw [mapM_recordAt, ← readFrom_eq_none_iff]
  obtain ⟨read, fault⟩ := readFrom limits 0 batch
  cases fault <;> simp

/-- Otherwise the batch has the error with which the reading ends. -/
theorem records_eq_error {e : BatchError} (h : readFrom limits 0 batch = (records, some e)) :
    batch.records limits = .error e := by
  unfold Batch.records
  rw [mapM_recordAt, h]

end Batch

end AtomicGroups
