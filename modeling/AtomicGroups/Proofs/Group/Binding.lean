import Mathlib
import AtomicGroups.Proofs.Group.Stamping
import AtomicGroups.Proofs.Record.Identity

/-!
# What a group binds

Lists of digests of whatever length are encoded differently, and so are records with different
fields.  So if the hash has no collision among the strings that are hashed, the group of a batch
determines the fields of its records and their order (`forall₂_samePayload_of_ofRecords_eq`).
-/

namespace AtomicGroups

/-! ## Hashes -/

/-- No two different strings of a list have the same hash. -/
def NoCollision (strings : List Bytes) : Prop :=
  ∀ x ∈ strings, ∀ y ∈ strings, Sha512.hash256 x = Sha512.hash256 y → x = y

theorem noCollision_of_nodup {strings : List Bytes}
    (h : (strings.map Sha512.hash256).Nodup) : NoCollision strings :=
  fun _ hx _ hy heq => List.inj_on_of_nodup_map h hx hy heq

theorem NoCollision.mono {strings strings' : List Bytes} (h : NoCollision strings)
    (hsub : strings' ⊆ strings) : NoCollision strings' :=
  fun x hx y hy heq => h x (hsub hx) y (hsub hy) heq

/-- What is hashed for the groups of two batches and of the runs of the second: each record without
its group, and each list of digests. -/
def hashedStrings (before after : List Record) : List Bytes :=
  (before ++ after).map Record.preimage ++
    (before :: after :: maximalRuns after).map fun members =>
      Group.preimage (members.map Record.digest)

section

variable {r : Record} {before after members : List Record}

theorem preimage_mem_hashedStrings (h : r ∈ before ++ after) :
    r.preimage ∈ hashedStrings before after :=
  List.mem_append_left _ (List.mem_map_of_mem h)

theorem list_mem_hashedStrings (h : members ∈ before :: after :: maximalRuns after) :
    Group.preimage (members.map Record.digest) ∈ hashedStrings before after :=
  List.mem_append_right _ (List.mem_map_of_mem (f := fun members : List Record =>
    Group.preimage (members.map Record.digest)) h)

end

/-- Two transactions, each under its limits, encode records with the same fields. -/
def SamePayload (limits limits' : Limits) (before after : Transaction) : Prop :=
  ∃ r s, before.record limits = .ok r ∧ after.record limits' = .ok s ∧ r.samePayload s = true

section

variable {limits limits' : Limits} {before after : Batch} {bs ts members : List Record}
  {strings : List Bytes}

/-- Without collisions, records with the same digest have the same fields. -/
theorem samePayload_of_digest_eq {tx tx' : Transaction} {r s : Record}
    (hsha : NoCollision strings) (hr : tx.record limits = .ok r) (hs : tx'.record limits' = .ok s)
    (hr' : r.preimage ∈ strings) (hs' : s.preimage ∈ strings) (h : r.digest = s.digest) :
    SamePayload limits limits' tx tx' := by
  have hpreimage : r.preimage = s.preimage := hsha _ hr' _ hs' h
  exact ⟨r, s, hr, hs, Record.samePayload_iff.2 ((Record.preimage_eq_iff hr hs).1 hpreimage)⟩

/-- Without collisions, batches with the same group have the same payloads in the same order. -/
theorem forall₂_samePayload_of_ofRecords_eq (hsha : NoCollision strings)
    (hbs : before.Decodes limits bs) (hts : after.Decodes limits' ts)
    (hrecords : ∀ r ∈ bs ++ ts, r.preimage ∈ strings)
    (hb : Group.preimage (bs.map Record.digest) ∈ strings)
    (ht : Group.preimage (ts.map Record.digest) ∈ strings)
    (h : Group.ofRecords bs = Group.ofRecords ts) :
    List.Forall₂ (SamePayload limits limits') before after := by
  have hdigests : bs.map Record.digest = ts.map Record.digest :=
    Group.preimage_injective (hsha _ hb _ ht h)
  clear h hb ht
  induction hbs generalizing after ts with
  | nil =>
    cases hts with
    | nil => exact .nil
    | cons => cases hdigests
  | @cons tx r before bs hr hbs ih =>
    cases hts with
    | nil => cases hdigests
    | @cons tx' s after ts hs hts =>
      rw [List.map_cons, List.map_cons] at hdigests
      injection hdigests with hhead htail
      refine .cons (samePayload_of_digest_eq hsha hr hs ?_ ?_ hhead) (ih hts ?_ htail)
      · exact hrecords r (by simp)
      · exact hrecords s (by simp)
      · intro x hx
        apply hrecords
        simp only [List.mem_append, List.mem_cons] at hx ⊢
        tauto

namespace Batch

/-- Unless two strings that are hashed collide, a group binds the payloads it was composed of: where
a batch claims the group and is found consistent, it has these payloads and no others, and where it
is cut into runs of whatever length, the claim is made by one run of these payloads and nowhere
else. -/
theorem group_binds_payloads (limits limits' : Limits) (before after : Batch) (g : Digest)
    (hg : before.group limits = .ok g) (hzero : g ≠ Digest.zero)
    (hclaim : ∃ tx ∈ after, ∃ r, tx.record limits' = .ok r ∧ r.group = g)
    (hsha : NoCollision (hashedStrings (before.decoded limits) (after.decoded limits'))) :
    (after.verify limits' = .ok true → List.Forall₂ (SamePayload limits limits') before after) ∧
    ∀ maxGroup a, after.segment limits' maxGroup = .ok a →
      ∃ run ∈ a.runs, run.length = before.length ∧
      (∀ position tx, after[position]? = some tx → (run.contains position = true ↔
        ∃ r, tx.record limits' = .ok r ∧ r.group = g)) ∧
      List.Forall₂ (SamePayload limits limits') before
        ((after.drop run.start).take run.length) := by
  obtain ⟨bs, hbs, rfl⟩ := group_eq_ok_iff.1 hg
  obtain ⟨tx, htx, r, hr, hgroup⟩ := hclaim
  rw [hbs.decoded_eq] at hsha
  constructor
  · intro hverify
    obtain ⟨ts, hts, hconsistent⟩ := verify_eq_ok_iff.1 hverify
    rw [hts.decoded_eq] at hsha
    refine forall₂_samePayload_of_ofRecords_eq hsha hbs hts
      (fun _ h => preimage_mem_hashedStrings h) (list_mem_hashedStrings (by simp))
      (list_mem_hashedStrings (by simp)) ?_
    rw [← hgroup] at hzero
    rw [Group.ofRecords_eq_of_consistent hconsistent (hts.mem htx hr) hzero, hgroup]
  · intro maxGroup a ha
    obtain ⟨ts, hts⟩ := decodes_of_segment ha
    rw [hts.decoded_eq] at hsha
    obtain ⟨run, hrun, hstop, hmaximal, hcomposes, hclaims⟩ :=
      exists_run_of_claim hts ha (hts.mem htx hr) (by rwa [hgroup])
    rw [hgroup] at hcomposes hclaims
    have hslice : Decodes limits' ((after.drop run.start).take run.length)
        ((ts.drop run.start).take run.length) :=
      List.forall₂_take _ (List.forall₂_drop _ hts)
    have hpayload := forall₂_samePayload_of_ofRecords_eq hsha hbs hslice ?_
      (list_mem_hashedStrings (by simp)) (list_mem_hashedStrings (by simp [hmaximal]))
      hcomposes.symm
    · refine ⟨run, hrun, ?_, ?_, hpayload⟩
      · rw [hpayload.length_eq, List.length_take, List.length_drop, hts.length_eq]
        unfold Run.length
        omega
      · intro position tx' htx'
        obtain ⟨s, hs, hdecode⟩ := hts.getElem? htx'
        rw [hclaims position s hs, hdecode]
        simp
    · intro s hs
      apply preimage_mem_hashedStrings
      rw [List.mem_append] at hs ⊢
      exact hs.imp_right fun hs => List.mem_of_mem_drop (List.mem_of_mem_take hs)

end Batch

end

/-! ## A pair -/

/-- What is hashed of a pair and of a record behind it: the two payloads, the pair, all three and
the last one alone. -/
def pairStrings : List Bytes :=
  [Record.oneField.preimage, Record.empty.preimage,
    Group.preimage ([Record.oneField, Record.empty].map Record.digest),
    Group.preimage ([Record.oneField, Record.empty, Record.oneField].map Record.digest),
    Group.preimage ([Record.oneField].map Record.digest)]

theorem noCollision_pairStrings : NoCollision pairStrings := by
  have hhashes : pairStrings.map Sha512.hash256 =
      [Record.oneField.digest, Record.empty.digest,
        Group.ofRecords [Record.oneField, Record.empty],
        Group.ofRecords [Record.oneField, Record.empty, Record.oneField],
        Group.ofRecords [Record.oneField]] := rfl
  refine noCollision_of_nodup ?_
  rw [hhashes, Record.digest_oneField, Record.digest_empty, Group.ofRecords_pair,
    Group.ofRecords_pair_oneField, Group.ofRecords_oneField]
  decide

namespace Batch

variable {g : Digest}

theorem hashedStrings_pair_subset (hg : g ≠ Digest.zero) :
    hashedStrings [Record.oneField, Record.empty]
      [Record.oneField.withGroup g, Record.empty.withGroup g] ⊆ pairStrings := by
  unfold hashedStrings pairStrings
  rw [(claim_pair g).maximalRuns_eq hg]
  simp

theorem hashedStrings_pair_concat_subset (hg : g ≠ Digest.zero) :
    hashedStrings [Record.oneField, Record.empty]
      ([Record.oneField.withGroup g, Record.empty.withGroup g] ++ [Record.oneField]) ⊆
        pairStrings := by
  unfold hashedStrings pairStrings
  rw [(claim_pair g).maximalRuns_concat hg rfl]
  simp

/-- A pair is stamped with its group.  By itself it is consistent and has the payloads; in front of
a transaction that claims no group it is a run of them. -/
theorem group_binds_payloads_pair :
    let tx : Transaction := ⟨[0x81, 0xa1, 0x61, 0x01]⟩
    let before : Batch := [tx, ⟨[0x80]⟩]
    let g := Group.ofRecords [Record.oneField, Record.empty]
    let pair := stamped g [Record.oneField, Record.empty]
    pair.verify {} = .ok true ∧ List.Forall₂ (SamePayload {} {}) before pair ∧
      ∃ a, (pair ++ [tx]).segment {} 2 = .ok a ∧ ∃ run ∈ a.runs, run.length = 2 ∧
        List.Forall₂ (SamePayload {} {}) before
          (((pair ++ [tx]).drop run.start).take run.length) := by
  intro tx before g pair
  have hgroup : before.group {} = .ok g := group_of_decodes decodes_pair
  have hzero : g ≠ Digest.zero := Group.ofRecords_pair_ne_zero
  have hpair : pair.Decodes {} _ := decodes_stamped_pair g
  have hafter : Decodes {} (pair ++ [tx]) _ := decodes_stamped_pair_concat g
  have hverify : pair.verify {} = .ok true := (verify_stamped_iff decodes_pair).2 (hasRoom_pair g)
  obtain ⟨s, hs⟩ := hpair.exists_record List.mem_cons_self
  have hclaim : s.group = g := decodes_pair.group_eq_of_mem_stamped List.mem_cons_self hs
  have hsha : NoCollision (hashedStrings (before.decoded {}) (pair.decoded {})) := by
    rw [decodes_pair.decoded_eq, hpair.decoded_eq]
    exact noCollision_pairStrings.mono (hashedStrings_pair_subset hzero)
  have hsha' : NoCollision (hashedStrings (before.decoded {}) ((pair ++ [tx]).decoded {})) := by
    rw [decodes_pair.decoded_eq, hafter.decoded_eq]
    exact noCollision_pairStrings.mono (hashedStrings_pair_concat_subset hzero)
  have hpayload := (group_binds_payloads {} {} before pair g hgroup hzero
    ⟨_, List.mem_cons_self, s, hs, hclaim⟩ hsha).1 hverify
  obtain ⟨run, hrun, hlength, -, hmembers⟩ := (group_binds_payloads {} {} before (pair ++ [tx]) g
    hgroup hzero ⟨_, List.mem_append_left _ List.mem_cons_self, s, hs, hclaim⟩ hsha').2 2 _
    (segment_stamped_pair_concat le_rfl)
  exact ⟨hverify, hpayload, _, segment_stamped_pair_concat le_rfl, run, hrun, hlength, hmembers⟩

end Batch

end AtomicGroups
