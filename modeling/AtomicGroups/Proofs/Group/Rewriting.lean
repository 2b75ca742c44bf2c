import Mathlib
import AtomicGroups.Proofs.Group.Composition
import AtomicGroups.Proofs.Record.Rewriting
import AtomicGroups.Proofs.Segment.Scan

/-!
# Rewriting batches

A batch that decodes is read only through its records: two batches with the same records get the
same answers (`Batch.segment_congr` and its neighbours).  So the answers do not depend on how the
records are laid out (`Batch.answers_eq_of_rewritten`).
-/

namespace AtomicGroups

/-- Whether one transaction is the other with its entries rewritten; the header of the map is any
header. -/
def Transaction.Rewritten (limits : Limits) (tx tx' : Transaction) : Prop :=
  ∃ l l' : Layout, l.bytes = tx.bytes ∧ l.Fits limits ∧ l'.bytes = tx'.bytes ∧
    Rewrites l.entries l'.entries

theorem Transaction.Rewritten.record_eq {limits : Limits} {tx tx' : Transaction} {r r' : Record}
    (h : Rewritten limits tx tx') (hr : tx.record limits = .ok r)
    (hr' : tx'.record limits = .ok r') : r = r' := by
  obtain ⟨l, l', hbytes, hfit, hbytes', hrewrites⟩ := h
  unfold Transaction.record at hr hr'
  rw [← hbytes] at hr
  rw [← hbytes'] at hr'
  exact hrewrites.decode_eq hfit hr hr'

namespace Batch

variable {limits : Limits} {batch batch' : Batch} {records records' : List Record}

/-! ## Batches with the same records -/

section

variable (h : batch.Decodes limits records) (h' : batch'.Decodes limits records)

include h h'

theorem records_congr : batch'.records limits = batch.records limits := by
  rw [records_eq_ok_iff.2 h, records_eq_ok_iff.2 h']

theorem segment_congr (maxGroup : Nat) :
    batch'.segment limits maxGroup = batch.segment limits maxGroup := by
  rw [segment_eq_takeIn, segment_eq_takeIn, readFrom_eq_none_iff.2 h, readFrom_eq_none_iff.2 h']

theorem segmentAll_congr : batch'.segmentAll limits = batch.segmentAll limits := by
  have hlength : batch'.length = batch.length := h'.length_eq.trans h.length_eq.symm
  unfold segmentAll
  rw [segment_congr h h', hlength]

theorem digests_congr :
    batch'.map (Transaction.digest limits) = batch.map (Transaction.digest limits) := by
  have hdigest : Transaction.digest limits = (Record.digest <$> ·) ∘ Transaction.record limits := rfl
  rw [hdigest, ← List.map_map, ← List.map_map, h.map_record, h'.map_record]

end

/-! ## Rewritten batches -/

theorem Decodes.eq_of_rewritten
    (hrewritten : List.Forall₂ (Transaction.Rewritten limits) batch batch')
    (h : batch.Decodes limits records) (h' : batch'.Decodes limits records') :
    records = records' := by
  unfold Decodes at h h'
  induction hrewritten generalizing records records' with
  | nil =>
    cases h
    cases h'
    rfl
  | cons htx _ ih =>
    cases h with
    | cons hr h =>
      cases h' with
      | cons hr' h' => rw [htx.record_eq hr hr', ih h h']

/-- Rewriting the transactions of a batch changes none of the answers. -/
theorem answers_eq_of_rewritten (limits : Limits) (batch batch' : Batch)
    (records records' : List Record)
    (hrewritten : List.Forall₂ (Transaction.Rewritten limits) batch batch')
    (h : batch.Decodes limits records) (h' : batch'.Decodes limits records') :
    batch'.map (Transaction.digest limits) = batch.map (Transaction.digest limits) ∧
      batch'.group limits = batch.group limits ∧ batch'.stamp limits = batch.stamp limits ∧
      batch'.verify limits = batch.verify limits ∧
      batch'.segmentAll limits = batch.segmentAll limits ∧
      ∀ maxGroup, batch'.segment limits maxGroup = batch.segment limits maxGroup := by
  obtain rfl := Decodes.eq_of_rewritten hrewritten h h'
  have hrecords := records_congr h h'
  refine ⟨digests_congr h h', ?_, ?_, ?_, segmentAll_congr h h', segment_congr h h'⟩
  · rw [group, hrecords, group]
  · rw [stamp, hrecords, stamp]
  · rw [verify, hrecords, verify]

/-- A record without a group and one with a group, both in their canonical layouts, and again with
wide headers, a group of zeros and another order. -/
theorem answers_eq_of_rewritten_pair :
    let canonical : Batch := [⟨plainLayout.bytes⟩, ⟨groupedLayout.bytes⟩]
    let rewritten : Batch := [⟨wideLayout.bytes⟩, ⟨reorderedLayout.bytes⟩]
    canonical ≠ rewritten ∧ List.Forall₂ (Transaction.Rewritten {}) canonical rewritten ∧
      Batch.stamp {} rewritten = Batch.stamp {} canonical ∧
      Batch.segmentAll {} rewritten = Batch.segmentAll {} canonical := by
  intro canonical rewritten
  have hrewritten : List.Forall₂ (Transaction.Rewritten {}) canonical rewritten :=
    .cons ⟨_, _, rfl, fits_plainLayout {}, rfl, rewrites_wideLayout⟩
      (.cons ⟨_, _, rfl, fits_groupedLayout {}, rfl, rewrites_reorderedLayout⟩ .nil)
  have hplain : Record.decode {} plainLayout.bytes = .ok Record.oneField :=
    Record.decode_oneField (by decide) (by decide)
  obtain ⟨-, -, hstamp, -, hsegment, -⟩ := answers_eq_of_rewritten {} canonical rewritten _ _
    hrewritten (.cons hplain (.cons decode_groupedLayout .nil))
    (.cons decode_wideLayout (.cons decode_reorderedLayout .nil))
  exact ⟨by decide, hrewritten, hstamp, hsegment⟩

end Batch

end AtomicGroups
