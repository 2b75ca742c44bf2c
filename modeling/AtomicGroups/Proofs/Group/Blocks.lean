import Mathlib
import AtomicGroups.Proofs.Group.Stamping

/-!
# Batches put together from blocks

A block is an unstamped transaction or a batch that was stamped.  Stamping changes no digest, so
what is read from a block composes to the group that was stamped, whatever groups its records
claimed before (`Block.Built.isRun`).  A batch that is put together from blocks with distinct groups
is cut into these blocks again (`Block.segment_flatMap`).
-/

namespace AtomicGroups

/-- A stretch of a batch that was put there as a whole. -/
structure Block where
  transactions : Batch
  /-- The group that was stamped on the transactions, zero if none was. -/
  group : Digest

namespace Block

/-- How a block comes about: it is a transaction that claims no group, or a batch was stamped with
its group, which is not zero, and can be read again. -/
inductive Built (limits : Limits) : Block → Prop
  | unstamped {tx : Transaction} {r : Record} :
    tx.record limits = .ok r → r.group = Digest.zero → Built limits ⟨[tx], Digest.zero⟩
  | stamped {batch out : Batch} {g : Digest} :
    batch ≠ [] → batch.group limits = .ok g → g ≠ Digest.zero → batch.stamp limits = .ok out →
    (∀ tx ∈ out, ∃ r, tx.record limits = .ok r) → Built limits ⟨out, g⟩

/-- The records that are read from a block. -/
def members (limits : Limits) (b : Block) : List Record := b.transactions.decoded limits

/-- Whether what is read from a block is one run, which composes to the group of the block. -/
structure IsRun (limits : Limits) (b : Block) : Prop where
  decodes : b.transactions.Decodes limits (b.members limits)
  claim : Claim b.group (b.members limits)
  isChain : (b.members limits).IsChain fun r s => continues r s = true
  composes : b.group = Digest.zero ∨ Group.ofRecords (b.members limits) = b.group

variable {limits : Limits} {maxGroup : Nat} {b : Block} {blocks : List Block}
  {records : List Record}

/-! ## One block -/

theorem isRun_unstamped {tx : Transaction} {r : Record} (h : tx.record limits = .ok r)
    (hzero : r.group = Digest.zero) : IsRun limits ⟨[tx], Digest.zero⟩ := by
  have hdec : Batch.Decodes limits [tx] [r] := .cons h .nil
  have hmembers : members limits ⟨[tx], Digest.zero⟩ = [r] := hdec.decoded_eq
  refine ⟨?_, ?_, ?_, .inl rfl⟩ <;> rw [hmembers]
  · exact hdec
  · exact ⟨List.cons_ne_nil _ _, fun s hs => List.mem_singleton.1 hs ▸ hzero⟩
  · exact .singleton r

theorem isRun_stamped {batch : Batch} {g : Digest} (hdec : batch.Decodes limits records)
    (hne : records ≠ []) (hg : Group.ofRecords records = g) (hzero : g ≠ Digest.zero)
    (hroom : ∀ r ∈ records, HasRoom limits g r) : IsRun limits ⟨stamped g records, g⟩ := by
  have hstamped := Batch.decodes_stamped hdec.fieldsFit hroom
  have hmembers : members limits ⟨stamped g records, g⟩ = records.map fun r => r.withGroup g :=
    hstamped.decoded_eq
  have hclaim := Batch.claim_map_withGroup hne g
  refine ⟨?_, ?_, ?_, .inr ?_⟩ <;> rw [hmembers]
  · exact hstamped
  · exact hclaim
  · exact hclaim.isChain hzero
  · rw [Group.ofRecords_map_withGroup, hg]

theorem Built.isRun (h : b.Built limits) : b.IsRun limits := by
  cases h with
  | unstamped hr hzero => exact isRun_unstamped hr hzero
  | stamped hne hg hzero hout hagain =>
    obtain ⟨records, hdec, rfl⟩ := Batch.stamp_eq_ok_iff.1 hout
    obtain ⟨records', hdec', rfl⟩ := Batch.group_eq_ok_iff.1 hg
    obtain rfl := hdec.unique hdec'
    exact isRun_stamped hdec (hdec.ne_nil hne) rfl hzero fun _ hr =>
      Batch.hasRoom_of_mem_stamped hdec.fieldsFit hagain hr

/-- A batch gives a block if its group is not zero and there is room for it. -/
theorem built_stamped {batch : Batch} (hdec : batch.Decodes limits records) (hne : batch ≠ [])
    (hzero : Group.ofRecords records ≠ Digest.zero)
    (hroom : ∀ r ∈ records, HasRoom limits (Group.ofRecords records) r) :
    Built limits ⟨stamped (Group.ofRecords records) records, Group.ofRecords records⟩ :=
  .stamped hne (Batch.group_eq_ok_iff.2 ⟨records, hdec, rfl⟩) hzero
    (Batch.stamp_eq_ok_iff.2 ⟨records, hdec, rfl⟩) fun _ htx =>
      (Batch.decodes_stamped hdec.fieldsFit hroom).exists_record htx

/-! ## Blocks one behind the other -/

theorem decodes_flatMap (h : ∀ b ∈ blocks, b.IsRun limits) :
    Batch.Decodes limits (blocks.flatMap Block.transactions)
      (blocks.map (members limits)).flatten := by
  induction blocks with
  | nil => exact .nil
  | cons b blocks ih =>
    rw [List.flatMap_cons, List.map_cons, List.flatten_cons]
    exact List.rel_append (h b List.mem_cons_self).decodes
      (ih fun b hb => h b (List.mem_cons_of_mem _ hb))

theorem length_flatten_members (h : ∀ b ∈ blocks, b.IsRun limits) (k : Nat) :
    ((blocks.map (members limits)).take k).flatten.length =
      ((blocks.take k).flatMap Block.transactions).length := by
  rw [← List.map_take]
  exact (decodes_flatMap fun b hb => h b (List.mem_of_mem_take hb)).length_eq.symm

/-- Of blocks with distinct groups, no two claim the same group. -/
theorem claimsDistinct_members (h : ∀ b ∈ blocks, b.IsRun limits)
    (hdistinct : blocks.Pairwise fun a b => a.group = b.group → a.group = Digest.zero) :
    ClaimsDistinct (blocks.map (members limits)) := by
  unfold ClaimsDistinct
  rw [List.pairwise_map]
  refine hdistinct.imp_of_mem fun {a b} ha hb heq => ?_
  rwa [(h a ha).claim.claimOf_eq, (h b hb).claim.claimOf_eq]

/-- Blocks with distinct groups are the maximal runs of what is read from them, and all may
stand. -/
theorem segment_flatMap (h : ∀ b ∈ blocks, b.IsRun limits)
    (hdistinct : blocks.Pairwise fun a b => a.group = b.group → a.group = Digest.zero)
    (hmax : ∀ b ∈ blocks, b.group ≠ Digest.zero → b.transactions.length ≤ maxGroup) :
    Batch.segment limits maxGroup (blocks.flatMap Block.transactions) =
      .ok (Assignment.ofRuns (runsFrom 0 0 (blocks.map (members limits)))) := by
  have hclaims := claimsDistinct_members h hdistinct
  have hruns : maximalRuns (blocks.map (members limits)).flatten =
      blocks.map (members limits) := by
    refine maximalRuns_flatten ?_ ?_ (List.Pairwise.isChain hclaims)
    · exact List.forall_mem_map.2 fun b hb => (h b hb).claim.1
    · exact List.forall_mem_map.2 fun b hb => (h b hb).isChain
  have hstands : ∀ part ∈ blocks.map (members limits), RunStands maxGroup part := by
    refine List.forall_mem_map.2 fun b hb => ?_
    unfold RunStands
    rw [(h b hb).claim.claimOf_eq, ← (h b hb).decodes.length_eq]
    by_cases hzero : b.group = Digest.zero
    · exact .inl hzero
    · exact .inr ⟨hmax b hb hzero, (h b hb).composes.resolve_left hzero⟩
  rw [Batch.segment_of_decodes (decodes_flatMap h), hruns]
  exact ⟨hstands, hclaims, rfl⟩

end Block

namespace Batch

/-- If a batch is put together from blocks whose groups are distinct, its runs are the blocks in
order, and each position has the number of its block as its index.  The same runs are found under a
limit that no stamped block exceeds. -/
theorem segment_flatMap_blocks (limits : Limits) (blocks : List Block)
    (hbuilt : ∀ b ∈ blocks, b.Built limits)
    (hdistinct : blocks.Pairwise fun a b => a.group = b.group → a.group = Digest.zero) :
    ∃ a, Batch.segmentAll limits (blocks.flatMap Block.transactions) = .ok a ∧
      (∀ maxGroup, (∀ b ∈ blocks, b.group ≠ Digest.zero → b.transactions.length ≤ maxGroup) →
        Batch.segment limits maxGroup (blocks.flatMap Block.transactions) = .ok a) ∧
      a.runs.size = blocks.length ∧
      a.indices.size = (blocks.flatMap Block.transactions).length ∧
      ∀ k b, blocks[k]? = some b →
        let start := ((blocks.take k).flatMap Block.transactions).length
        a.runs[k]? = some ⟨k, start, start + b.transactions.length, b.group⟩ ∧
          ∀ i < b.transactions.length, a.indices[start + i]? = some k := by
  have hruns : ∀ b ∈ blocks, b.IsRun limits := fun b hb => (hbuilt b hb).isRun
  refine ⟨Assignment.ofRuns (runsFrom 0 0 (blocks.map (Block.members limits))), ?_,
    fun maxGroup hmax => Block.segment_flatMap hruns hdistinct hmax, ?_, ?_, fun k b hk => ?_⟩
  · refine Block.segment_flatMap hruns hdistinct fun b hb _ => ?_
    exact (List.sublist_flatten_of_mem (List.mem_map_of_mem hb)).length_le
  · rw [← Array.length_toList, Assignment.toList_runs_ofRuns, length_runsFrom, List.length_map]
  · rw [← Array.length_toList, Assignment.toList_indices_ofRuns, length_indicesOf_runsFrom]
    exact (Block.decodes_flatMap hruns).length_eq.symm
  have hb := hruns b (List.mem_of_getElem? hk)
  have hlen : (b.members limits).length = b.transactions.length := hb.decodes.length_eq.symm
  have hmembers : (blocks.map (Block.members limits))[k]? = some (b.members limits) := by
    rw [List.getElem?_map, hk, Option.map_some]
  dsimp only
  rw [← Array.getElem?_toList, Assignment.toList_runs_ofRuns, ← Block.length_flatten_members hruns]
  constructor
  · rw [getElem?_runsFrom, hmembers, Option.map_some, hlen, hb.claim.claimOf_eq, Nat.zero_add,
      Nat.zero_add]
  · intro i hi
    rw [← Array.getElem?_toList, Assignment.toList_indices_ofRuns]
    exact getElem?_indicesOf hmembers (by rwa [hlen])

/-- One record and two records are stamped and put between transactions that claim no group. -/
theorem segment_flatMap_blocks_oneField :
    let tx : Transaction := ⟨[0x81, 0xa1, 0x61, 0x01]⟩
    let one := [Record.oneField]
    let two := [Record.oneField, Record.oneField]
    ∃ a, Batch.segmentAll {} ([tx] ++ stamped (Group.ofRecords one) one ++
        stamped (Group.ofRecords two) two ++ [tx]) = .ok a ∧
      a.runs.size = 4 ∧ a.runs[2]? = some ⟨2, 2, 4, Group.ofRecords two⟩ ∧
      a.indices[3]? = some 2 := by
  intro tx one two
  have hone : Group.ofRecords one ≠ Digest.zero := Group.ofRecords_oneField_ne.1
  have htwo : Group.ofRecords two ≠ Digest.zero := Group.ofRecords_oneField_twice_ne.1
  have hne : Group.ofRecords one ≠ Group.ofRecords two := Group.ofRecords_oneField_twice_ne.2
  have hdec : Batch.Decodes {} [tx] one := decodes_oneField (by decide) (by decide)
  have htx : tx.record {} = .ok Record.oneField := (List.forall₂_cons.1 hdec).1
  have hfirst : Block.Built {} ⟨[tx], Digest.zero⟩ := .unstamped htx rfl
  have hsecond : Block.Built {} ⟨stamped (Group.ofRecords one) one, Group.ofRecords one⟩ :=
    Block.built_stamped hdec (List.cons_ne_nil _ _) hone (by simpa [one] using hasRoom_oneField _)
  have hthird : Block.Built {} ⟨stamped (Group.ofRecords two) two, Group.ofRecords two⟩ :=
    Block.built_stamped (.cons htx hdec) (List.cons_ne_nil _ _) htwo
      (by simpa [two] using hasRoom_oneField _)
  obtain ⟨a, ha, -, hsize, -, hruns⟩ := segment_flatMap_blocks {} [⟨[tx], Digest.zero⟩,
    ⟨stamped (Group.ofRecords one) one, Group.ofRecords one⟩,
    ⟨stamped (Group.ofRecords two) two, Group.ofRecords two⟩, ⟨[tx], Digest.zero⟩]
    (by simp [hfirst, hsecond, hthird]) (by simp [hne])
  obtain ⟨hrun, hindex⟩ := hruns 2 _ rfl
  refine ⟨a, ?_, hsize, hrun, hindex 1 (by decide)⟩
  simpa using ha

end Batch

end AtomicGroups
