import Mathlib
import AtomicGroups.Proofs.Group.Binding

/-!
# How the two checks agree

A batch can be checked as a whole, or cut into runs that are checked one by one.  A run that stands
is consistent on its own.  If all transactions are stamped, the batch is consistent exactly if it is
one run that stands (`Batch.verify_iff_indices`).  If some are not, the first check ignores them and
the second does not, so both accept such a batch only if none of its transactions is stamped, unless
the hash of a list of digests collides with that of a shorter one (`Batch.claims_of_verify`).
-/

namespace AtomicGroups

section

variable {maxGroup : Nat} {members records : List Record}

/-- A run that may stand is consistent on its own. -/
theorem RunStands.consistent (h : RunStands maxGroup members)
    (hclaim : Claim (claimOf members) members) : Group.consistent members = true := by
  rw [Group.consistent_iff]
  intro r hr
  rw [hclaim.2 r hr]
  exact h.imp_right fun hcomposes => hcomposes.2.symm

/-- The lists of digests that are hashed when a batch is checked as a whole and run by run. -/
def hashedLists (records : List Record) : List Bytes :=
  (records :: (maximalRuns records).filter fun members => claimOf members ≠ Digest.zero).map
    fun members => Group.preimage (members.map Record.digest)

/-- If the batch is one run, there is only one list that is hashed. -/
theorem Claim.noCollision_hashedLists {g : Digest} (h : Claim g records) (hg : g ≠ Digest.zero) :
    NoCollision (hashedLists records) := by
  have hlists : ∀ x ∈ hashedLists records, x = Group.preimage (records.map Record.digest) := by
    unfold hashedLists
    rw [h.maximalRuns_eq hg]
    intro x hx
    obtain ⟨members, hmembers, rfl⟩ := List.mem_map.1 hx
    rw [List.mem_cons, List.mem_filter, List.mem_singleton] at hmembers
    rcases hmembers with rfl | ⟨rfl, -⟩ <;> rfl
  intro x hx y hy _
  rw [hlists x hx, hlists y hy]

/-- Without collisions, a run that has the group of the whole batch is all of it. -/
theorem eq_of_mem_maximalRuns (hsha : NoCollision (hashedLists records))
    (hmem : members ∈ maximalRuns records) (hzero : claimOf members ≠ Digest.zero)
    (h : Group.ofRecords members = Group.ofRecords records) : members = records := by
  have hhashed (part : List Record) (hpart : part = records ∨ part = members) :
      Group.preimage (part.map Record.digest) ∈ hashedLists records := by
    unfold hashedLists
    refine List.mem_map.2 ⟨part, ?_, rfl⟩
    rcases hpart with rfl | rfl
    · exact List.mem_cons_self
    · exact List.mem_cons_of_mem _ (List.mem_filter.2 ⟨hmem, decide_eq_true hzero⟩)
  have hdigests : members.map Record.digest = records.map Record.digest :=
    Group.preimage_injective (hsha _ (hhashed members (.inr rfl)) _ (hhashed records (.inl rfl)) h)
  have hsublist : members.Sublist records := by
    conv_rhs => rw [← flatten_maximalRuns records]
    exact List.sublist_flatten_of_mem hmem
  refine hsublist.eq_of_length ?_
  simpa using congrArg List.length hdigests

end

namespace Batch

variable {limits : Limits} {maxGroup : Nat} {batch : Batch} {records : List Record}
  {a : Assignment}

/-- A batch all of whose transactions are stamped is consistent exactly if it is cut into one
run. -/
theorem verify_iff_indices (h : batch.Decodes limits records) (hne : batch ≠ [])
    (hstamped : ∀ r ∈ records, r.group ≠ Digest.zero) : batch.verify limits = .ok true ↔
      Assignment.indices <$> batch.segmentAll limits = .ok (Array.replicate batch.length 0) := by
  have hlen : batch.length = records.length := h.length_eq
  have hrecords : records ≠ [] := h.ne_nil hne
  rw [verify_of_decodes h, Except.ok.injEq, map_eq_ok_iff]
  constructor
  · intro hconsistent
    rw [Group.consistent_iff] at hconsistent
    have hclaim : Claim (Group.ofRecords records) records :=
      ⟨hrecords, fun r hr => (hconsistent r hr).resolve_left (hstamped r hr)⟩
    have hzero : Group.ofRecords records ≠ Digest.zero := by
      obtain ⟨r, hr⟩ := List.exists_mem_of_ne_nil records hrecords
      rw [← hclaim.2 r hr]
      exact hstamped r hr
    refine ⟨_, (segment_of_claim h hclaim hzero).2 ⟨⟨hlen.ge, rfl⟩, rfl⟩, ?_⟩
    rw [Assignment.indices_ofRuns_singleton, hlen]
  · rintro ⟨a, ha, hindices⟩
    obtain ⟨hstands, -, rfl⟩ := (segment_of_decodes h).1 ha
    have hle : (maximalRuns records).length ≤ 1 := by
      refine length_le_one_of_indicesOf (fun part hpart => ne_nil_of_mem_maximalRuns hpart) ?_
      rw [← Assignment.toList_indices_ofRuns, hindices]
      simp
    obtain ⟨members, later, hruns⟩ := List.exists_cons_of_ne_nil (maximalRuns_ne_nil hrecords)
    have hone : maximalRuns records = [records] := by
      have hflatten := flatten_maximalRuns records
      rw [hruns, List.length_cons] at hle
      obtain rfl : later = [] := List.length_eq_zero_iff.1 (by omega)
      rw [hruns, List.flatten_singleton] at hflatten
      rw [hruns, hflatten]
    have hmem : records ∈ maximalRuns records := by simp [hone]
    exact (hstands records hmem).consistent (claim_of_mem_maximalRuns hmem)

/-- Without collisions, both checks accept a batch only if all of it claims the same group or none
of it claims any. -/
theorem claims_of_verify (h : batch.Decodes limits records)
    (hsha : NoCollision (hashedLists records)) (hverify : batch.verify limits = .ok true)
    (ha : batch.segment limits maxGroup = .ok a) :
    (∀ r ∈ records, r.group = Digest.zero) ∨
      ∃ g, g ≠ Digest.zero ∧ ∀ r ∈ records, r.group = g := by
  rw [verify_of_decodes h, Except.ok.injEq, Group.consistent_iff] at hverify
  obtain ⟨hstands, -, -⟩ := (segment_of_decodes h).1 ha
  by_cases hall : ∀ r ∈ records, r.group = Digest.zero
  · exact .inl hall
  -- the run of a stamped record composes to the group of the whole batch
  push Not at hall
  obtain ⟨r, hr, hzero⟩ := hall
  have hown := (hverify r hr).resolve_left hzero
  rw [← flatten_maximalRuns records, List.mem_flatten] at hr
  obtain ⟨members, hmembers, hr⟩ := hr
  have hclaim := claim_of_mem_maximalRuns hmembers
  have hgroup : r.group = claimOf members := hclaim.2 r hr
  rw [hgroup] at hzero hown
  obtain ⟨-, hcomposes⟩ := (hstands members hmembers).resolve_left hzero
  obtain rfl := eq_of_mem_maximalRuns hsha hmembers hzero (hcomposes.trans hown)
  exact .inr ⟨claimOf members, hzero, hclaim.2⟩

/-- Each run that a batch is cut into is consistent on its own.  If all transactions are stamped,
the batch is consistent exactly if all of it is one run.  In any case, unless lists of digests
collide, a batch that passes both checks is unstamped or claims one group throughout. -/
theorem verify_segmentAll_agree (limits : Limits) (batch : Batch) (records : List Record)
    (h : List.Forall₂ (fun tx r => tx.record limits = .ok r) batch records) :
    (∀ a, batch.segmentAll limits = .ok a → ∀ run ∈ a.runs,
      Batch.verify limits ((batch.drop run.start).take run.length) = .ok true) ∧
    (batch ≠ [] → (∀ r ∈ records, r.group ≠ Digest.zero) →
      (batch.verify limits = .ok true ↔
        Assignment.indices <$> batch.segmentAll limits = .ok (Array.replicate batch.length 0))) ∧
    (NoCollision (hashedLists records) → batch.verify limits = .ok true →
      ∀ a, batch.segmentAll limits = .ok a →
        (∀ r ∈ records, r.group = Digest.zero) ∨
          ∃ g, g ≠ Digest.zero ∧ ∀ r ∈ records, r.group = g) := by
  refine ⟨fun a ha run hrun => ?_, verify_iff_indices h, fun hsha hverify a ha =>
    claims_of_verify h hsha hverify ha⟩
  obtain ⟨hstands, -, rfl⟩ := (segment_of_decodes h).1 ha
  rw [← Array.mem_toList_iff, Assignment.toList_runs_ofRuns] at hrun
  have hmembers := slice_of_mem_runsFrom hrun
  rw [flatten_maximalRuns] at hmembers
  rw [verify_of_decodes (Decodes.slice h run.start run.length),
    (hstands _ hmembers).consistent (claim_of_mem_maximalRuns hmembers)]

/-- A stamped pair passes both checks.  With a transaction behind it that claims no group, it is one
of two runs that are consistent on their own. -/
theorem verify_segmentAll_agree_pair :
    let tx : Transaction := ⟨[0x81, 0xa1, 0x61, 0x01]⟩
    let pair := stamped (Group.ofRecords [Record.oneField, Record.empty])
      [Record.oneField, Record.empty]
    pair.verify {} = .ok true ∧
      (∃ a, pair.segmentAll {} = .ok a ∧ a.indices = #[0, 0] ∧
        ((∀ r ∈ pair.decoded {}, r.group = Digest.zero) ∨
          ∃ g, g ≠ Digest.zero ∧ ∀ r ∈ pair.decoded {}, r.group = g)) ∧
      ∃ a, (pair ++ [tx]).segmentAll {} = .ok a ∧ a.runs.size = 2 ∧ ∀ run ∈ a.runs,
        Batch.verify {} (((pair ++ [tx]).drop run.start).take run.length) = .ok true := by
  intro tx pair
  have hzero := Group.ofRecords_pair_ne_zero
  have hclaim := claim_pair (Group.ofRecords [Record.oneField, Record.empty])
  have hpair : pair.Decodes {} _ := decodes_stamped_pair _
  have hverify : pair.verify {} = .ok true :=
    (verify_stamped_iff decodes_pair).2 (hasRoom_pair _)
  obtain ⟨-, hone, hboth⟩ := verify_segmentAll_agree {} pair _ hpair
  obtain ⟨a, ha, hindices⟩ := map_eq_ok_iff.1
    ((hone (List.cons_ne_nil _ _) fun r hr => hclaim.2 r hr ▸ hzero).1 hverify)
  have hclaims := hboth (hclaim.noCollision_hashedLists hzero) hverify a ha
  obtain ⟨hruns, -⟩ := verify_segmentAll_agree {} (pair ++ [tx]) _ (decodes_stamped_pair_concat _)
  have hsegment : (pair ++ [tx]).segmentAll {} = .ok _ := segment_stamped_pair_concat (by decide)
  rw [hpair.decoded_eq]
  refine ⟨hverify, ⟨a, ha, hindices, hclaims⟩, _, hsegment, ?_, hruns _ hsegment⟩
  rw [← Array.length_toList, Assignment.toList_runs_ofRuns]
  rfl

end Batch

end AtomicGroups
