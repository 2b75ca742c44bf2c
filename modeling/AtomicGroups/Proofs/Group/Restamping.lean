import Mathlib
import AtomicGroups.Proofs.Group.Binding
import AtomicGroups.Proofs.Record.Canonical

/-!
# What a stamp depends on and what it changes

A batch is stamped through its records without their groups, so batches with the same payloads are
stamped alike (`Batch.stamp_congr`).  A stamped batch has these payloads again, whatever groups are
set in it afterwards (`map_withoutGroup_eq_of_regrouped`).  Without its stamp, a transaction is what
it was before exactly if it had no group and was laid out in the canonical way
(`Record.encode_withoutGroup_eq_iff`).
-/

namespace AtomicGroups

variable {limits limits' : Limits} {g : Digest} {r s : Record} {bs ts records : List Record}

/-! ## Records without their groups -/

theorem Group.ofRecords_congr (h : bs.map Record.withoutGroup = ts.map Record.withoutGroup) :
    Group.ofRecords bs = Group.ofRecords ts := by
  have hcleared (records : List Record) :
      ofRecords (records.map Record.withoutGroup) = ofRecords records :=
    ofRecords_map_withGroup records Digest.zero
  rw [← hcleared bs, h, hcleared]

theorem stamped_congr (h : bs.map Record.withoutGroup = ts.map Record.withoutGroup) (g : Digest) :
    stamped g bs = stamped g ts := by
  have hcleared (records : List Record) :
      stamped g (records.map Record.withoutGroup) = stamped g records := by
    unfold stamped
    rw [List.map_map]
    rfl
  rw [← hcleared bs, h, hcleared]

/-- Whether one transaction is the other one, or its record in the canonical layout with a group
that was set or cleared. -/
def Transaction.Regrouped (tx tx' : Transaction) : Prop :=
  tx' = tx ∨ ∃ limits r g, tx.record limits = .ok r ∧ tx' = (r.withGroup g).toTransaction

/-- One group takes the place of another. -/
theorem Transaction.Regrouped.of_record {tx : Transaction}
    (h : tx.record limits = .ok (r.withGroup g)) (g' : Digest) :
    tx.Regrouped (r.withGroup g').toTransaction :=
  .inr ⟨limits, r.withGroup g, g', h, rfl⟩

/-- What is read from a regrouped transaction are the fields that were stamped. -/
theorem Record.FieldsFit.withoutGroup_eq_of_regrouped {tx : Transaction}
    (hfit : r.FieldsFit limits) (h : (r.withGroup g).toTransaction.Regrouped tx)
    (hs : tx.record limits' = .ok s) : r.withoutGroup = s.withoutGroup := by
  rcases h with rfl | ⟨limits'', r', g', hr', rfl⟩
  · rw [(hfit.withGroup g).eq_of_decode_encode hs]
    rfl
  · obtain rfl := (hfit.withGroup g).eq_of_decode_encode hr'
    rw [((hfit.withGroup g).withGroup g').eq_of_decode_encode hs]
    rfl

theorem map_withoutGroup_eq_of_regrouped {batch : Batch} (hfit : ∀ r ∈ records, r.FieldsFit limits)
    (h : List.Forall₂ Transaction.Regrouped (stamped g records) batch)
    (hts : batch.Decodes limits' ts) :
    records.map Record.withoutGroup = ts.map Record.withoutGroup := by
  induction records generalizing batch ts with
  | nil =>
    cases h
    cases hts
    rfl
  | cons r records ih =>
    obtain ⟨hr, hrecords⟩ := List.forall_mem_cons.1 hfit
    cases h with
    | cons htx h =>
      cases hts with
      | cons hs hts =>
        rw [List.map_cons, List.map_cons, hr.withoutGroup_eq_of_regrouped htx hs,
          ih hrecords h hts]

namespace Batch

variable {batch batch' out : Batch}

/-- Batches whose records differ in their groups only are stamped alike. -/
theorem stamp_congr (hbs : batch.Decodes limits bs) (hts : batch'.Decodes limits' ts)
    (h : bs.map Record.withoutGroup = ts.map Record.withoutGroup) :
    batch'.stamp limits' = batch.stamp limits ∧ batch'.group limits' = batch.group limits := by
  rw [stamp_of_decodes hbs, stamp_of_decodes hts, group_of_decodes hbs, group_of_decodes hts,
    Group.ofRecords_congr h, stamped_congr h]
  exact ⟨rfl, rfl⟩

theorem exists_decodes_of_samePayload (h : List.Forall₂ (SamePayload limits limits') batch batch') :
    ∃ bs ts, batch.Decodes limits bs ∧ batch'.Decodes limits' ts ∧
      bs.map Record.withoutGroup = ts.map Record.withoutGroup := by
  induction h with
  | nil => exact ⟨[], [], .nil, .nil, rfl⟩
  | cons htx _ ih =>
    obtain ⟨r, s, hr, hs, hsame⟩ := htx
    obtain ⟨bs, ts, hbs, hts, hmap⟩ := ih
    refine ⟨r :: bs, s :: ts, .cons hr hbs, .cons hs hts, ?_⟩
    rw [List.map_cons, List.map_cons, hmap]
    exact congrArg (· :: _) (Record.withGroup_eq_iff.2 (Record.samePayload_iff.1 hsame))

/-- Batches with the same payloads are stamped alike and have the same group.  So a stamped batch
that can be read is stamped again with the group it has, also after the groups of some of its
transactions were set to others or cleared. -/
theorem stamp_eq_of_samePayload (limits : Limits) :
    (∀ before after : Batch, List.Forall₂ (SamePayload limits limits) before after → ∃ out g,
      before.stamp limits = .ok out ∧ after.stamp limits = .ok out ∧
      before.group limits = .ok g ∧ after.group limits = .ok g) ∧
    (∀ batch out : Batch, batch.stamp limits = .ok out →
      (∀ tx ∈ out, ∃ r, tx.record limits = .ok r) →
      out.stamp limits = .ok out ∧
        ∃ g, batch.group limits = .ok g ∧ out.group limits = .ok g) ∧
    ∀ batch out changed : Batch, batch.stamp limits = .ok out →
      List.Forall₂ Transaction.Regrouped out changed →
      (∀ tx ∈ changed, ∃ r, tx.record limits = .ok r) → changed.stamp limits = .ok out := by
  have hchanged (batch out changed : Batch) (hout : batch.stamp limits = .ok out)
      (h : List.Forall₂ Transaction.Regrouped out changed)
      (hdec : ∀ tx ∈ changed, ∃ r, tx.record limits = .ok r) :
      changed.stamp limits = .ok out ∧ changed.group limits = batch.group limits := by
    obtain ⟨records, hrecords, rfl⟩ := stamp_eq_ok_iff.1 hout
    obtain ⟨ts, hts⟩ := exists_decodes hdec
    rw [← hout]
    exact stamp_congr hrecords hts (map_withoutGroup_eq_of_regrouped hrecords.fieldsFit h hts)
  refine ⟨fun before after h => ?_, fun batch out hout hdec => ?_,
    fun batch out changed hout h hdec => (hchanged batch out changed hout h hdec).1⟩
  · obtain ⟨bs, ts, hbs, hts, hmap⟩ := exists_decodes_of_samePayload h
    obtain ⟨hstamp, hgroup⟩ := stamp_congr hbs hts hmap
    have hout := stamp_of_decodes hbs
    have hg := group_of_decodes hbs
    exact ⟨_, _, hout, hstamp.trans hout, hg, hgroup.trans hg⟩
  · obtain ⟨hstamp, hgroup⟩ :=
      hchanged batch out out hout (List.forall₂_same.2 fun tx _ => .inl rfl) hdec
    obtain ⟨records, hrecords, -⟩ := stamp_eq_ok_iff.1 hout
    exact ⟨hstamp, _, group_of_decodes hrecords, hgroup.trans (group_of_decodes hrecords)⟩

/-- A pair is stamped alike with and without another stamp on one of its transactions, stamped
again, and stamped again after the group of that transaction was set to another one. -/
theorem stamp_eq_of_samePayload_pair :
    let grouped (n : UInt8) := (Record.oneField.withGroup ⟨List.replicate 32 n, rfl⟩).toTransaction
    ∃ first second, Batch.stamp {} [⟨[0x81, 0xa1, 0x61, 0x01]⟩, ⟨[0x80]⟩] = .ok [first, second] ∧
      Batch.stamp {} [grouped 7, ⟨[0x80]⟩] = .ok [first, second] ∧
      Batch.stamp {} [first, second] = .ok [first, second] ∧
      Batch.stamp {} [grouped 9, second] = .ok [first, second] := by
  intro grouped
  have hempty : Transaction.record {} ⟨[0x80]⟩ = .ok Record.empty :=
    Record.decode_empty (by decide)
  have hgrouped (n : UInt8) : (grouped n).record {} = .ok (Record.oneField.withGroup _) :=
    Record.decode_encode_oneField_withGroup (by decide) (by decide) ⟨List.replicate 32 n, rfl⟩
  obtain ⟨hsame, hagain, hchanged⟩ := stamp_eq_of_samePayload {}
  have hout := stamp_of_decodes decodes_pair
  have hstamped := decodes_stamped_pair (Group.ofRecords [Record.oneField, Record.empty])
  obtain ⟨hfirst, hsecond⟩ := List.forall₂_cons.1 hstamped
  obtain ⟨out, g, hplain, hother, -, -⟩ := hsame _ [grouped 7, ⟨[0x80]⟩]
    (.cons ⟨_, _, (List.forall₂_cons.1 decodes_pair).1, hgrouped 7, by decide⟩
      (.cons ⟨_, _, hempty, hempty, by decide⟩ .nil))
  obtain rfl := Except.ok.inj (hplain.symm.trans hout)
  have hread : ∀ tx ∈ stamped _ _, ∃ r, tx.record {} = .ok r :=
    fun _ htx => hstamped.exists_record htx
  refine ⟨_, _, hout, hother, (hagain _ _ hout hread).1, hchanged _ _ [grouped 9, _] hout
    (.cons (.of_record hfirst _) (.cons (.inl rfl) .nil)) fun tx htx => ?_⟩
  rcases List.mem_pair.1 htx with rfl | rfl
  · exact ⟨_, hgrouped 9⟩
  · exact ⟨_, (List.forall₂_cons.1 hsecond).1⟩

/-! ## What a stamp changes -/

theorem getElem?_stamped {i : Nat} {tx : Transaction} : (stamped g records)[i]? = some tx ↔
    ∃ r, records[i]? = some r ∧ (r.withGroup g).toTransaction = tx := by
  unfold stamped
  rw [List.getElem?_map, Option.map_eq_some_iff]

/-- There are limits under which a stamped record is read again, if its entries can be counted. -/
theorem exists_record_of_stamped (hfit : r.FieldsFit limits) (hcount : r.size + 1 < 2 ^ 32) :
    ∃ limits' s, (r.withGroup g).toTransaction.record limits' = .ok s := by
  have hsize := r.size_entries_withGroup_le g
  let limits' : Limits := ⟨limits.maxDepth, max limits.maxEntries (r.size + 1)⟩
  have hfit' : (r.withGroup g).FieldsFit limits' :=
    (hfit.withGroup g).mono le_rfl (le_max_left _ _)
  exact ⟨limits', _, hfit'.decode_encode_eq_ok_iff.2
    ⟨rfl, hsize.trans (le_max_right _ _), hsize.trans_lt hcount⟩⟩

/-- A batch that is stamped keeps its length, and each transaction its fields: whatever is read from
it has them and the group of the batch.  Without the stamp it is the canonical transaction of its
fields, which it was before exactly if it was laid out in the canonical way and had no group. -/
theorem fields_eq_of_stamp (limits : Limits) (batch out : Batch)
    (h : batch.stamp limits = .ok out) : out.length = batch.length ∧
    ∀ (i : Nat) (tx tx' : Transaction), batch[i]? = some tx → out[i]? = some tx' →
      ∃ r, tx.record limits = .ok r ∧
      (∀ limits' s, tx'.record limits' = .ok s → s.fields = r.fields ∧
        batch.group limits = .ok s.group ∧ s.withoutGroup.encode = r.withoutGroup.encode) ∧
      (r.withoutGroup.encode = tx.bytes ↔ ∃ l : Layout, l.bytes = tx.bytes ∧ l.Fits limits ∧
        l.IsCanonical ∧ ∀ e ∈ l.entries, e.key ≠ groupKey) ∧
      (r.size + 1 < 2 ^ 32 → ∃ limits' s, tx'.record limits' = .ok s) := by
  obtain ⟨records, hrecords, rfl⟩ := stamp_eq_ok_iff.1 h
  refine ⟨?_, fun i tx tx' htx htx' => ?_⟩
  · rw [stamped, List.length_map, hrecords.length_eq]
  obtain ⟨r, hr, hdecode⟩ := hrecords.getElem? htx
  obtain ⟨r', hr', rfl⟩ := getElem?_stamped.1 htx'
  rw [hr] at hr'
  cases hr'
  have hfit := hrecords.fieldsFit r (List.mem_of_getElem? hr)
  refine ⟨r, hdecode, fun limits' s hs => ?_, Record.encode_withoutGroup_eq_iff hdecode,
    exists_record_of_stamped hfit⟩
  obtain rfl := (hfit.withGroup _).eq_of_decode_encode hs
  exact ⟨rfl, group_of_decodes hrecords, rfl⟩

/-- Two transactions of one record are stamped.  Without its stamp, the one in the canonical layout
is what it was before, and the one in a wide layout is not. -/
theorem fields_eq_of_stamp_pair :
    let plain : Transaction := ⟨plainLayout.bytes⟩
    let wide : Transaction := ⟨wideLayout.bytes⟩
    ∃ first second r s, Batch.stamp {} [plain, wide] = .ok [first, second] ∧
      first.record {} = .ok r ∧ second.record {} = .ok s ∧
      Batch.group {} [plain, wide] = .ok r.group ∧ Batch.group {} [plain, wide] = .ok s.group ∧
      r.withoutGroup.encode = plain.bytes ∧ s.withoutGroup.encode ≠ wide.bytes := by
  intro plain wide
  have hplain : plain.record {} = .ok Record.oneField :=
    Record.decode_oneField (by decide) (by decide)
  have hdec : Decodes {} [plain, wide] [Record.oneField, Record.oneField] :=
    .cons hplain (.cons decode_wideLayout .nil)
  have hout := stamp_of_decodes hdec
  obtain ⟨hfirst, hlater⟩ := List.forall₂_cons.1 (decodes_stamped hdec.fieldsFit
    (show ∀ r ∈ _, HasRoom {} (Group.ofRecords _) r by simpa using hasRoom_oneField _))
  obtain ⟨-, h⟩ := fields_eq_of_stamp {} [plain, wide] _ hout
  obtain ⟨r, -, hread, hcanonical, -⟩ := h 0 plain _ rfl rfl
  obtain ⟨s, hs, hread', -, -⟩ := h 1 wide _ rfl rfl
  obtain rfl : s = Record.oneField := Except.ok.inj (hs.symm.trans decode_wideLayout)
  obtain ⟨-, hgroup, hencode⟩ := hread {} _ hfirst
  obtain ⟨-, hgroup', hencode'⟩ := hread' {} _ (List.forall₂_cons.1 hlater).1
  have hback := hcanonical.2 ⟨plainLayout, rfl, fits_plainLayout {}, isCanonical_plainLayout,
    fun e he => List.mem_singleton.1 he ▸ by decide⟩
  refine ⟨_, _, _, _, hout, hfirst, (List.forall₂_cons.1 hlater).1, hgroup, hgroup',
    hencode.trans hback, ?_⟩
  rw [hencode']
  decide

end Batch

end AtomicGroups
