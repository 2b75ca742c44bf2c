import Mathlib
import AtomicGroups.Record.Lemmas
import AtomicGroups.Segment.Partition

/-!
# Laws of maximal runs

A maximal run is an unstamped record, or a stamped one with the records behind it that claim the
same group, as far as they go (`maximalRuns_cons_of_unstamped`, `maximalRuns_cons_of_stamped`).
Laid out one behind the other, the runs of a batch cover each position once
(`exists_contains_of_runsFrom`, `eq_of_contains_of_runsFrom`), and two runs with the same claim do
not touch (`stop_lt_start`).  Runs can be put together and are found again (`maximalRuns_flatten`).
-/

namespace AtomicGroups

variable {g : Digest} {r s : Record} {members later records : List Record}

theorem continues_iff : continues r s = true ↔ s.group ≠ Digest.zero ∧ r.group = s.group := by
  unfold continues
  rw [Bool.and_eq_true, Record.isStamped_iff, decide_eq_true_eq]

theorem continues_eq_false_iff :
    continues r s = false ↔ (s.group ≠ Digest.zero → r.group ≠ s.group) := by
  rw [← Bool.not_eq_true, continues_iff, not_and]

/-! ## Cutting off the first run -/

/-- Whether all members, of which there are some, claim the group `g`. -/
def Claim (g : Digest) (members : List Record) : Prop :=
  members ≠ [] ∧ ∀ r ∈ members, r.group = g

theorem Claim.claimOf_eq (h : Claim g members) : claimOf members = g := by
  cases members with
  | nil => exact absurd rfl h.1
  | cons r later => exact h.2 r List.mem_cons_self

theorem Claim.concat (h : Claim g members) (hr : r.group = g) : Claim g (members ++ [r]) := by
  refine ⟨by simp, fun s hs => ?_⟩
  rw [List.mem_append, List.mem_singleton] at hs
  rcases hs with hs | rfl
  · exact h.2 s hs
  · exact hr

theorem Claim.isChain (h : Claim g members) (hg : g ≠ Digest.zero) :
    members.IsChain fun r s => continues r s = true := by
  refine List.Pairwise.isChain (List.pairwise_of_forall_mem_list fun r hr s hs => ?_)
  rw [continues_iff, h.2 r hr, h.2 s hs]
  exact ⟨hg, rfl⟩

@[simp] theorem maximalRuns_nil : maximalRuns [] = [] := rfl

/-- Neighbours with one claim are one run. -/
theorem Claim.maximalRuns_eq (h : Claim g members) (hg : g ≠ Digest.zero) :
    maximalRuns members = [members] :=
  List.splitBy_of_isChain h.1 (h.isChain hg)

/-- The run of a claim ends where another claim begins. -/
theorem Claim.maximalRuns_append (h : Claim g members) (hg : g ≠ Digest.zero) (hr : r.group ≠ g) :
    maximalRuns (members ++ r :: later) = members :: maximalRuns (r :: later) := by
  unfold maximalRuns
  rw [List.splitBy_append_cons, List.splitBy_of_isChain h.1 (h.isChain hg)]
  · rfl
  · intro s hs
    rw [continues_eq_false_iff, h.2 s (List.mem_of_mem_getLast? hs)]
    exact fun _ => hr.symm

theorem maximalRuns_cons_of_unstamped (hr : r.group = Digest.zero) :
    maximalRuns (r :: later) = [r] :: maximalRuns later := by
  unfold maximalRuns
  cases later with
  | nil => exact List.splitBy_of_isChain (List.cons_ne_nil _ _) (List.IsChain.singleton r)
  | cons s later =>
    rw [show r :: s :: later = [r] ++ s :: later from rfl, List.splitBy_append_cons,
      List.splitBy_of_isChain (List.cons_ne_nil _ _) (List.IsChain.singleton r)]
    · rfl
    · intro x hx
      obtain rfl : r = x := by simpa using hx
      rw [continues_eq_false_iff, hr]
      exact fun hs => hs.symm

theorem maximalRuns_cons_of_stamped (hr : r.group ≠ Digest.zero) : maximalRuns (r :: later) =
    (r :: later.takeWhile fun s => s.group = r.group) ::
      maximalRuns (later.dropWhile fun s => s.group = r.group) := by
  have hclaim : Claim r.group (r :: later.takeWhile fun s => s.group = r.group) := by
    refine ⟨List.cons_ne_nil _ _, fun s hs => ?_⟩
    rcases List.mem_cons.1 hs with rfl | hs
    · rfl
    · have hgroup := List.mem_takeWhile_imp hs
      exact of_decide_eq_true hgroup
  have hsplit : r :: later = (r :: later.takeWhile fun s => s.group = r.group) ++
      later.dropWhile fun s => s.group = r.group := by
    rw [List.cons_append, List.takeWhile_append_dropWhile]
  conv_lhs => rw [hsplit]
  cases hdrop : later.dropWhile fun s => s.group = r.group with
  | nil =>
    rw [List.append_nil]
    exact hclaim.maximalRuns_eq hr
  | cons s rest =>
    have hs := List.head?_dropWhile_not (fun s : Record => decide (s.group = r.group)) later
    rw [hdrop] at hs
    exact hclaim.maximalRuns_append hr (of_decide_eq_false hs)

/-- An unstamped record ends the run of a claim. -/
theorem Claim.maximalRuns_concat (h : Claim g members) (hg : g ≠ Digest.zero)
    (hr : r.group = Digest.zero) : maximalRuns (members ++ [r]) = [members, [r]] := by
  rw [h.maximalRuns_append hg (hr.trans_ne hg.symm), maximalRuns_cons_of_unstamped hr,
    maximalRuns_nil]

theorem maximalRuns_ne_nil (h : records ≠ []) : maximalRuns records ≠ [] :=
  List.splitBy_ne_nil.2 h

/-- Runs have members. -/
theorem ne_nil_of_mem_maximalRuns (h : members ∈ maximalRuns records) : members ≠ [] :=
  List.ne_nil_of_mem_splitBy h

/-- All members of a run claim the same group. -/
theorem claim_of_mem_maximalRuns (h : members ∈ maximalRuns records) :
    Claim (claimOf members) members := by
  refine ⟨ne_nil_of_mem_maximalRuns h, ?_⟩
  have hchain := List.isChain_of_mem_splitBy h
  clear h
  cases members with
  | nil => simp
  | cons r later =>
    change ∀ s ∈ r :: later, s.group = r.group
    induction later generalizing r with
    | nil => simp
    | cons s later ih =>
      rw [List.isChain_cons_cons, continues_iff] at hchain
      intro x hx
      rcases List.mem_cons.1 hx with rfl | hx
      · rfl
      · rw [ih s hchain.2 x hx, hchain.1.2]

@[simp] theorem flatten_maximalRuns (records : List Record) :
    (maximalRuns records).flatten = records :=
  List.flatten_splitBy continues records

/-- Neighbouring runs do not claim the same group. -/
theorem isChain_maximalRuns (records : List Record) : (maximalRuns records).IsChain fun a b =>
    claimOf a = claimOf b → claimOf a = Digest.zero := by
  have hsplit := List.isChain_getLast_head_splitBy continues records
  rw [List.isChain_iff_getElem] at hsplit ⊢
  intro i hi heq
  obtain ⟨ha, hb, hcontinues⟩ := hsplit i hi
  have hlast := (claim_of_mem_maximalRuns (List.getElem_mem (Nat.lt_of_succ_lt hi))).2 _
    (List.getLast_mem ha)
  have hhead := (claim_of_mem_maximalRuns (List.getElem_mem hi)).2 _ (List.head_mem hb)
  rw [continues_eq_false_iff] at hcontinues
  by_contra hzero
  rw [← hlast] at heq hzero
  rw [← hhead] at heq
  exact hcontinues (heq ▸ hzero) heq

/-- Parts that could be runs are the maximal runs of their records if no two neighbours claim one
group. -/
theorem maximalRuns_flatten {parts : List (List Record)} (hne : ∀ part ∈ parts, part ≠ [])
    (hparts : ∀ part ∈ parts, part.IsChain fun r s => continues r s = true)
    (hchain : parts.IsChain fun a b => claimOf a = claimOf b → claimOf a = Digest.zero) :
    maximalRuns parts.flatten = parts := by
  have hclaims (part : List Record) (hmem : part ∈ parts) : Claim (claimOf part) part := by
    have hone : maximalRuns part = [part] :=
      List.splitBy_of_isChain (hne part hmem) (hparts part hmem)
    exact claim_of_mem_maximalRuns (hone ▸ List.mem_singleton_self part)
  refine List.splitBy_flatten (fun hnil => hne [] hnil rfl) hparts ?_
  rw [List.isChain_iff_getElem] at hchain ⊢
  intro i hi
  have ha := List.getElem_mem (Nat.lt_of_succ_lt hi)
  have hb := List.getElem_mem hi
  refine ⟨hne _ ha, hne _ hb, continues_eq_false_iff.2 fun hzero heq => ?_⟩
  rw [(hclaims _ ha).2 _ (List.getLast_mem _), (hclaims _ hb).2 _ (List.head_mem _)] at heq
  rw [(hclaims _ hb).2 _ (List.head_mem _), ← heq] at hzero
  exact hzero (hchain i hi heq)

/-! ## Laying out runs -/

section

variable {parts : List (List Record)} {run run' : Run} {index start position : Nat}

theorem runsFrom_append (index start : Nat) (parts later : List (List Record)) :
    runsFrom index start (parts ++ later) = runsFrom index start parts ++
      runsFrom (index + parts.length) (start + parts.flatten.length) later := by
  induction parts generalizing index start with
  | nil => rfl
  | cons members parts ih =>
    rw [List.cons_append, runsFrom, ih, runsFrom, List.cons_append, List.flatten_cons,
      List.length_append, List.length_cons, Nat.add_assoc start, Nat.add_assoc index,
      Nat.add_comm 1]

theorem start_le_of_mem_runsFrom (h : run ∈ runsFrom index start parts) : start ≤ run.start := by
  induction parts generalizing index start with
  | nil => cases h
  | cons members parts ih =>
    rcases List.mem_cons.1 h with rfl | h
    · exact le_rfl
    · exact (Nat.le_add_right _ _).trans (ih h)

/-- In front of a run there is a position for each run in front of it. -/
theorem index_le_start_of_mem_runsFrom (hne : ∀ part ∈ parts, part ≠ []) (hle : index ≤ start)
    (h : run ∈ runsFrom index start parts) : run.index ≤ run.start := by
  induction parts generalizing index start with
  | nil => cases h
  | cons members parts ih =>
    obtain ⟨hmembers, hparts⟩ := List.forall_mem_cons.1 hne
    rcases List.mem_cons.1 h with rfl | h
    · exact hle
    · have hpos := List.length_pos_of_ne_nil hmembers
      exact ih hparts (by omega) h

theorem Run.contains_iff : run.contains position = true ↔
    run.start ≤ position ∧ position < run.stop := by
  unfold Run.contains
  rw [decide_eq_true_eq]

/-- No position lies in two runs. -/
theorem eq_of_contains_of_runsFrom (h : run ∈ runsFrom index start parts)
    (h' : run' ∈ runsFrom index start parts) (hp : run.contains position = true)
    (hp' : run'.contains position = true) : run = run' := by
  rw [Run.contains_iff] at hp hp'
  induction parts generalizing index start with
  | nil => cases h
  | cons members parts ih =>
    rcases List.mem_cons.1 h with rfl | h <;> rcases List.mem_cons.1 h' with rfl | h'
    · rfl
    · have hle := start_le_of_mem_runsFrom h'
      have hlt := hp.2
      dsimp only at hlt
      omega
    · have hle := start_le_of_mem_runsFrom h
      have hlt := hp'.2
      dsimp only at hlt
      omega
    · exact ih h h'

/-- The indices of the positions, run by run. -/
def indicesOf (runs : List Run) : List Nat :=
  runs.flatMap fun run => List.replicate run.length run.index

theorem Run.length_mk (index start n : Nat) (g : Digest) :
    Run.length ⟨index, start, start + n, g⟩ = n :=
  Nat.add_sub_cancel_left ..

theorem length_indicesOf_runsFrom (index start : Nat) (parts : List (List Record)) :
    (indicesOf (runsFrom index start parts)).length = parts.flatten.length := by
  induction parts generalizing index start with
  | nil => rfl
  | cons members parts ih =>
    unfold indicesOf at ih ⊢
    rw [runsFrom, List.flatMap_cons, List.length_append, List.length_replicate, ih,
      List.flatten_cons, List.length_append, Run.length_mk]

/-- Every position lies in a run and has its index. -/
theorem exists_contains_of_runsFrom (index start position : Nat)
    (hp : position < parts.flatten.length) :
    ∃ run ∈ runsFrom index start parts, run.contains (start + position) = true ∧
      (indicesOf (runsFrom index start parts))[position]? = some run.index := by
  induction parts generalizing index start position with
  | nil => cases hp
  | cons members parts ih =>
    unfold indicesOf at ih ⊢
    rw [runsFrom, List.flatMap_cons, Run.length_mk]
    by_cases hmem : position < members.length
    · refine ⟨_, List.mem_cons_self, ?_, ?_⟩
      · rw [Run.contains_iff]
        dsimp only
        omega
      · rw [List.getElem?_append_left (by rwa [List.length_replicate]),
          List.getElem?_replicate_of_lt hmem]
    · rw [List.flatten_cons, List.length_append] at hp
      obtain ⟨run, hrun, hcontains, hindex⟩ :=
        ih (index + 1) (start + members.length) (position - members.length) (by omega)
      refine ⟨run, List.mem_cons_of_mem _ hrun, ?_, ?_⟩
      · rwa [show start + members.length + (position - members.length) = start + position by omega]
          at hcontains
      · rw [List.getElem?_append_right (by rw [List.length_replicate]; omega),
          List.length_replicate]
        exact hindex

/-- Each part is laid out behind the parts in front of it. -/
theorem getElem?_runsFrom (index start k : Nat) (parts : List (List Record)) :
    (runsFrom index start parts)[k]? = parts[k]?.map fun members =>
      ⟨index + k, start + (parts.take k).flatten.length,
        start + (parts.take k).flatten.length + members.length, claimOf members⟩ := by
  induction parts generalizing index start k with
  | nil => simp [runsFrom]
  | cons members parts ih =>
    cases k with
    | zero => simp [runsFrom]
    | succ k =>
      rw [runsFrom, List.getElem?_cons_succ, ih]
      simp [Nat.add_assoc, Nat.add_comm 1]

/-- A part stands between the parts in front of it and the parts behind it. -/
theorem flatten_eq_append {k : Nat} (h : parts[k]? = some members) : parts.flatten =
    (parts.take k).flatten ++ (members ++ (parts.drop (k + 1)).flatten) := by
  obtain ⟨hk, rfl⟩ := List.getElem?_eq_some_iff.1 h
  rw [← List.flatten_cons, ← List.flatten_append, List.getElem_cons_drop, List.take_append_drop]

/-- At the positions of a run stand its members. -/
theorem slice_of_mem_runsFrom (h : run ∈ runsFrom 0 0 parts) :
    (parts.flatten.drop run.start).take run.length ∈ parts := by
  obtain ⟨k, hk⟩ := List.mem_iff_getElem?.1 h
  rw [getElem?_runsFrom, Option.map_eq_some_iff] at hk
  obtain ⟨members, hmembers, rfl⟩ := hk
  rw [Run.length_mk]
  dsimp only
  rw [Nat.zero_add, flatten_eq_append hmembers, List.drop_left, List.take_left]
  exact List.mem_of_getElem? hmembers

/-- The run of a part that has members has positions, all of them among those laid out. -/
theorem bounds_of_mem_runsFrom (hne : ∀ part ∈ parts, part ≠ [])
    (h : run ∈ runsFrom 0 0 parts) : run.start < run.stop ∧ run.stop ≤ parts.flatten.length := by
  obtain ⟨k, hk⟩ := List.mem_iff_getElem?.1 h
  rw [getElem?_runsFrom, Option.map_eq_some_iff] at hk
  obtain ⟨members, hmembers, rfl⟩ := hk
  have hpos := List.length_pos_of_ne_nil (hne members (List.mem_of_getElem? hmembers))
  have hle := congrArg List.length (flatten_eq_append hmembers)
  rw [List.length_append, List.length_append] at hle
  dsimp only
  omega

theorem length_runsFrom (index start : Nat) (parts : List (List Record)) :
    (runsFrom index start parts).length = parts.length := by
  induction parts generalizing index start with
  | nil => rfl
  | cons members parts ih => rw [runsFrom, List.length_cons, ih, List.length_cons]

theorem length_flatten_take_le {i j : Nat} (h : i ≤ j) (parts : List (List Record)) :
    (parts.take i).flatten.length ≤ (parts.take j).flatten.length :=
  (List.take_prefix_take_left h).sublist.flatten.length_le

theorem length_flatten_take_succ {k : Nat} (h : parts[k]? = some members) :
    (parts.take (k + 1)).flatten.length = (parts.take k).flatten.length + members.length := by
  simp [List.take_add_one, h]

/-- The positions of a part have its number as their index. -/
theorem getElem?_indicesOf {k i : Nat} (h : parts[k]? = some members) (hi : i < members.length) :
    (indicesOf (runsFrom 0 0 parts))[(parts.take k).flatten.length + i]? = some k := by
  have hlt : (parts.take k).flatten.length + i < parts.flatten.length := by
    rw [flatten_eq_append h, List.length_append, List.length_append]
    omega
  obtain ⟨run, hrun, hcontains, hindex⟩ := exists_contains_of_runsFrom 0 0 _ hlt
  have hk := getElem?_runsFrom 0 0 k parts
  rw [h, Option.map_some, Nat.zero_add, Nat.zero_add] at hk
  have hmem := List.mem_of_getElem? hk
  rw [hindex, eq_of_contains_of_runsFrom hrun hmem hcontains]
  rw [Run.contains_iff]
  dsimp only
  omega

/-- If all positions have the index of the first run, there is no other run. -/
theorem length_le_one_of_indicesOf (hne : ∀ part ∈ parts, part ≠ [])
    (h : ∀ index ∈ indicesOf (runsFrom 0 0 parts), index = 0) : parts.length ≤ 1 := by
  by_contra hlen
  have hsecond : parts[1]? = some parts[1] := List.getElem?_eq_getElem (by omega)
  have hpos := List.length_pos_of_ne_nil (hne _ (List.mem_of_getElem? hsecond))
  have hmem := List.mem_of_getElem? (getElem?_indicesOf hsecond hpos)
  exact Nat.one_ne_zero (h 1 hmem)

/-- If two runs claim the same group, there is something between them. -/
theorem stop_lt_start {i j : Nat} {first run : Run} (hij : i < j)
    (hi : (runsFrom 0 0 (maximalRuns records))[i]? = some first)
    (hj : (runsFrom 0 0 (maximalRuns records))[j]? = some run) (heq : first.group = run.group)
    (hzero : run.group ≠ Digest.zero) : first.stop < run.start := by
  rw [getElem?_runsFrom, Option.map_eq_some_iff] at hi hj
  obtain ⟨a, ha, rfl⟩ := hi
  obtain ⟨b, hb, rfl⟩ := hj
  dsimp only at heq hzero ⊢
  rw [Nat.zero_add, Nat.zero_add, ← length_flatten_take_succ ha]
  obtain ⟨hlt, rfl⟩ := List.getElem?_eq_some_iff.1 hb
  have hnext : i + 1 < j := by
    refine Nat.lt_of_le_of_ne hij ?_
    intro hadjacent
    subst hadjacent
    have hchain := (isChain_maximalRuns records).getElem i hlt
    rw [List.getElem?_eq_getElem (by omega), Option.some.injEq] at ha
    rw [ha] at hchain
    exact hzero (heq ▸ hchain heq)
  have hbetween : (maximalRuns records)[i + 1]? = some (maximalRuns records)[i + 1] :=
    List.getElem?_eq_getElem (by omega)
  have hpos := List.length_pos_of_ne_nil
    (ne_nil_of_mem_maximalRuns (List.mem_of_getElem? hbetween))
  have hle := length_flatten_take_le hnext (maximalRuns records)
  rw [length_flatten_take_succ hbetween] at hle
  omega

end

/-! ## Distinct claims -/

section

variable {earlier later : List (List Record)} {members part : List Record} {s : Record}

/-- Of parts with distinct claims, only one makes a claim that is not zero. -/
theorem eq_zero_of_claimOf_eq (hdistinct : ClaimsDistinct (earlier ++ members :: later))
    (hpart : part ∈ earlier ∨ part ∈ later) (heq : claimOf part = claimOf members) :
    claimOf members = Digest.zero := by
  unfold ClaimsDistinct at hdistinct
  rw [List.pairwise_append, List.pairwise_cons] at hdistinct
  obtain ⟨-, ⟨hlater, -⟩, hearlier⟩ := hdistinct
  rcases hpart with hpart | hpart
  · rw [← heq]
    exact hearlier part hpart members List.mem_cons_self heq
  · exact hlater part hpart heq.symm

/-- Laid out one behind the other, such parts have the claim of one of them exactly where it
lies. -/
theorem claims_iff_of_getElem? {position : Nat}
    (hclaims : ∀ part ∈ earlier ++ members :: later, Claim (claimOf part) part)
    (hdistinct : ClaimsDistinct (earlier ++ members :: later))
    (hzero : claimOf members ≠ Digest.zero)
    (hs : (earlier.flatten ++ (members ++ later.flatten))[position]? = some s) :
    earlier.flatten.length ≤ position ∧ position < earlier.flatten.length + members.length ↔
      s.group = claimOf members := by
  have hother (hmem : s ∈ earlier.flatten ∨ s ∈ later.flatten) : s.group ≠ claimOf members := by
    rw [List.mem_flatten, List.mem_flatten, ← exists_or] at hmem
    obtain ⟨part, hpart⟩ := hmem
    rw [← or_and_right] at hpart
    intro heq
    rw [(hclaims part (by simp; tauto)).2 s hpart.2] at heq
    exact hzero (eq_zero_of_claimOf_eq hdistinct hpart.1 heq)
  by_cases hbefore : position < earlier.flatten.length
  · rw [List.getElem?_append_left hbefore] at hs
    have hne := hother (.inl (List.mem_of_getElem? hs))
    exact ⟨fun hp => by omega, fun heq => absurd heq hne⟩
  rw [List.getElem?_append_right (Nat.le_of_not_lt hbefore)] at hs
  by_cases hin : position - earlier.flatten.length < members.length
  · rw [List.getElem?_append_left hin] at hs
    have heq := (hclaims members (by simp)).2 s (List.mem_of_getElem? hs)
    exact ⟨fun _ => heq, fun _ => by omega⟩
  · rw [List.getElem?_append_right (Nat.le_of_not_lt hin)] at hs
    have hne := hother (.inr (List.mem_of_getElem? hs))
    exact ⟨fun hp => by omega, fun heq => absurd heq hne⟩

end

end AtomicGroups
