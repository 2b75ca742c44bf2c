import Mathlib
import AtomicGroups.Proofs.Wire.Faults
import AtomicGroups.Proofs.Wire.Spans

/-!
# Bounds on walks

How long a walk is and how much it keeps.  Each header takes at least one byte, so a walk reads at
most one header more than there are bytes left (`Walk.exists_ends`), however large the limits are.
At every point each open container owes something, there are no more open ones than bytes passed,
and their number stays within the depth that is allowed (`Walk.IsBounded`).
-/

namespace AtomicGroups.Wire.Walk

variable {limits : Limits} {base level : Nat} {w w' : Walk} {c c' d : Cursor}
  {pending stack : List Nat}

/-! ## Points of a walk -/

/-- `Ends limits w c n o` says that the walk `w` at the cursor `c` comes to the outcome `o` with the
`n`-th header that it reads. -/
inductive Ends (limits : Limits) : Walk → Cursor → Nat → Outcome Unit → Prop
  | complete {w : Walk} {c c' : Cursor} :
    w.step limits c = .ok none c' → Ends limits w c 1 (.ok () c')
  | failed {w : Walk} {c c' : Cursor} {e : DecodeError} :
    w.step limits c = .error e c' → Ends limits w c 1 (.error e c')
  | next {w w' : Walk} {c c' : Cursor} {n : Nat} {o : Outcome Unit} :
    w.step limits c = .ok (some w') c' → Ends limits w' c' n o → Ends limits w c (n + 1) o

/-- The stacks that are met while the containers whose last item was read are closed, one after the
other. -/
inductive Closes (pending : List Nat) : List Nat → Prop
  | refl : Closes pending pending
  | pop {outer : List Nat} : Closes pending (1 :: outer) → Closes pending outer

/-- `w.Owes limits c pending d` says that the walk `w` from the cursor `c` owes the items `pending`
at some point with the cursor `d`: in front of a header, or behind one while containers are
closed. -/
inductive Owes (limits : Limits) (w : Walk) (c : Cursor) : List Nat → Cursor → Prop
  | reading {w' : Walk} {d : Cursor} : w.Reaches limits c w' d → Owes limits w c w'.pending d
  | closing {w' : Walk} {d d' : Cursor} {stack : List Nat} :
    w.Reaches limits c w' d → Reader.header limits w'.level d = .ok 0 d' →
    Closes w'.pending stack → Owes limits w c stack d'

theorem Closes.suffix (h : Closes pending stack) : stack <:+ pending := by
  induction h with
  | refl => exact List.suffix_rfl
  | pop _ ih => exact (List.suffix_cons 1 _).trans ih

/-! ## Steps -/

/-- A step that goes on opens a container or counts an item as read. -/
theorem of_step_eq_some (h : w.step limits c = .ok (some w') c') :
    ∃ items, Reader.header limits w.level c = .ok items c' ∧
      (0 < items ∧ w' = w.descend items ∨ items = 0 ∧ settle w.level w.pending = some w') := by
  unfold step at h
  obtain ⟨items, d, hheader, hstep⟩ := Reader.bind_eq_ok.1 h
  injection hstep with hnext hcursor
  subst hcursor
  refine ⟨items, hheader, ?_⟩
  split_ifs at hnext with hzero
  · exact .inr ⟨hzero, hnext⟩
  · cases hnext
    exact .inl ⟨Nat.pos_of_ne_zero hzero, rfl⟩

/-- What is left on the stack once an item is counted as read: the innermost container that owes
another one, with what lies around it. -/
theorem of_settle_eq_some (h : settle level pending = some w) :
    ∃ owed outer, owed :: outer <:+ pending ∧ 1 < owed ∧ w.pending = (owed - 1) :: outer ∧
      w.level ≤ level := by
  induction pending generalizing level with
  | nil => cases h
  | cons owed outer ih =>
    unfold settle at h
    split_ifs at h with howed
    · obtain ⟨owed', outer', hsuffix, hpos, hpending, hlevel⟩ := ih h
      exact ⟨owed', outer', hsuffix.trans (List.suffix_cons owed outer), hpos, hpending, by omega⟩
    · cases h
      exact ⟨owed, outer, List.suffix_rfl, by omega, rfl, le_rfl⟩

/-- A container is opened only where fewer than the greatest depth are open. -/
theorem lt_maxDepth_of_header {items : Nat}
    (h : Reader.header limits level c = .ok items c') (hitems : 0 < items) :
    level < limits.maxDepth := by
  obtain ⟨-, -, -, tag, announced, -, ha, -⟩ := (Reader.reads_header limits level c _ _).1 h
  have hheight := (isContainer_of_announces ha hitems).1
  omega

theorem offset_lt_of_header {items : Nat} (h : Reader.header limits level c = .ok items c') :
    c.offset < c'.offset := by
  have hforward := Reader.forward_header limits level c
  rw [h] at hforward
  have hsum := Cursor.Leads.offset_add_remaining hforward
  have hless := Reader.consuming_header limits level c items c' h
  change c'.offset + c'.remaining = c.offset + c.remaining at hsum
  omega

theorem offset_lt_of_step {next : Option Walk} (h : w.step limits c = .ok next c') :
    c.offset < c'.offset := by
  obtain ⟨items, d, hheader, hnext⟩ := Reader.bind_eq_ok.1 h
  cases hnext
  exact offset_lt_of_header hheader

theorem length_pending_le_of_step (h : w.step limits c = .ok (some w') c') :
    w'.pending.length ≤ w.pending.length + 1 := by
  obtain ⟨items, -, ⟨-, rfl⟩ | ⟨-, hsettle⟩⟩ := of_step_eq_some h
  · exact le_rfl
  · obtain ⟨owed, outer, hsuffix, -, hpending, -⟩ := of_settle_eq_some hsettle
    have hlength := hsuffix.length_le
    simp only [hpending, List.length_cons] at hlength ⊢
    omega

/-! ## What a walk keeps -/

/-- The bounds on what a walk keeps over a value inside `base` open containers. -/
structure IsBounded (limits : Limits) (base : Nat) (w : Walk) : Prop where
  /-- The level counts the open containers. -/
  above : w.IsAbove base
  /-- No container stays open that owes nothing. -/
  positive : ∀ owed ∈ w.pending, 0 < owed
  level_le : w.level ≤ max base limits.maxDepth

theorem isBounded_start (limits : Limits) (level : Nat) : (start level).IsBounded limits level :=
  ⟨isAbove_start level, by simp [start], le_max_left _ _⟩

theorem IsBounded.step (hw : w.IsBounded limits base) (h : w.step limits c = .ok (some w') c') :
    w'.IsBounded limits base := by
  refine ⟨hw.above.step h, ?_, ?_⟩
  · obtain ⟨items, -, ⟨hitems, rfl⟩ | ⟨-, hsettle⟩⟩ := of_step_eq_some h
    · exact List.forall_mem_cons.2 ⟨hitems, hw.positive⟩
    · obtain ⟨owed, outer, hsuffix, howed, hpending, -⟩ := of_settle_eq_some hsettle
      rw [hpending]
      exact List.forall_mem_cons.2 ⟨by omega, fun owed' hmem =>
        hw.positive owed' (hsuffix.subset (List.mem_cons_of_mem _ hmem))⟩
  · obtain ⟨items, hheader, ⟨hitems, rfl⟩ | ⟨-, hsettle⟩⟩ := of_step_eq_some h
    · exact (Nat.succ_le_of_lt (lt_maxDepth_of_header hheader hitems)).trans (le_max_right _ _)
    · obtain ⟨-, -, -, -, -, hlevel⟩ := of_settle_eq_some hsettle
      exact hlevel.trans hw.level_le

theorem IsBounded.reaches (hw : w.IsBounded limits base) (h : w.Reaches limits c w' d) :
    w'.IsBounded limits base := by
  induction h with
  | refl => exact hw
  | step _ hstep ih => exact ih.step hstep

theorem IsBounded.length_pending_le (hw : w.IsBounded limits base) :
    w.pending.length ≤ limits.maxDepth - base := by
  have habove := hw.above
  have hlevel := hw.level_le
  unfold IsAbove at habove
  omega

/-- A walk only moves forward over bytes that are there. -/
theorem Reaches.leads (h : w.Reaches limits c w' d) : c.Leads d := by
  induction h with
  | refl => exact .refl c
  | @step w' w'' c' c'' _ hstep ih =>
    have hforward := forward_step limits w' c'
    rw [hstep] at hforward
    exact ih.trans hforward

/-- Every container that is open was opened by a byte of its own. -/
theorem Reaches.length_pending_le (h : w.Reaches limits c w' d) :
    c.offset + w'.pending.length ≤ d.offset + w.pending.length := by
  induction h with
  | refl => exact le_rfl
  | step _ hstep ih =>
    have hlength := length_pending_le_of_step hstep
    have hoffset := offset_lt_of_step hstep
    omega

/-- Whatever a walk owes at some point, it owed at the last header in front of it. -/
theorem Owes.exists_reaches (h : w.Owes limits c pending d) :
    ∃ w' d', w.Reaches limits c w' d' ∧ pending <:+ w'.pending ∧ d'.offset ≤ d.offset := by
  cases h with
  | reading hreaches => exact ⟨_, d, hreaches, List.suffix_rfl, le_rfl⟩
  | closing hreaches hheader hcloses =>
    exact ⟨_, _, hreaches, hcloses.suffix, (offset_lt_of_header hheader).le⟩

/-! ## How long a walk is -/

/-- A walk comes to its outcome with at most one header more than there are bytes left. -/
theorem exists_ends (limits : Limits) (w : Walk) (c : Cursor) :
    ∃ n, n ≤ c.remaining + 1 ∧ Ends limits w c n (w.run limits c) := by
  fun_induction run limits w c with
  | case1 w c c' h => exact ⟨1, by omega, .complete h⟩
  | case2 w c w' c' h hless ih =>
    obtain ⟨n, hn, hends⟩ := ih
    exact ⟨n + 1, by omega, .next h hends⟩
  | case3 w c e c' h => exact ⟨1, by omega, .failed h⟩

/-- Whatever the limits, a walk over a value comes to its outcome with at most one header more than
there are bytes left, since each header that it does not fail on takes at least one byte.  At every
point the items that it owes are positive for each open container, and there are no more open ones
than bytes passed or than the depth allows. -/
theorem run_within_input (limits : Limits) (level : Nat) (c : Cursor) :
    (∃ n, n ≤ c.remaining + 1 ∧
      Ends limits (start level) c n ((start level).run limits c)) ∧
    (∀ w d next d', (start level).Reaches limits c w d → w.step limits d = .ok next d' →
      d.offset < d'.offset) ∧
    ∀ pending d, (start level).Owes limits c pending d →
      (∀ owed ∈ pending, 0 < owed) ∧ pending.length ≤ d.offset - c.offset ∧
        pending.length ≤ limits.maxDepth - level := by
  refine ⟨exists_ends limits _ c, fun w d next d' _ => offset_lt_of_step, fun pending d h => ?_⟩
  obtain ⟨w, d', hreaches, hsuffix, hoffset⟩ := h.exists_reaches
  have hbounded := (isBounded_start limits level).reaches hreaches
  have hshorter := hsuffix.length_le
  refine ⟨fun owed hmem => hbounded.positive owed (hsuffix.subset hmem), ?_,
    hshorter.trans hbounded.length_pending_le⟩
  have hlength : c.offset + w.pending.length ≤ d'.offset := hreaches.length_pending_le
  omega

/-- Behind the headers of an array and of an array in it, two bytes were passed and two containers
are open, as many as may be. -/
theorem run_within_input_nested :
    let c := Cursor.start [0x92, 0x91, 0x01, 0x02]
    (start 1).Owes ⟨3, 65536⟩ c [1, 2] (c.advance 2) ∧
      [1, 2].length ≤ (c.advance 2).offset - c.offset ∧ [1, 2].length ≤ 3 - 1 := by
  intro c
  have houter : (start 1).step ⟨3, 65536⟩ c = .ok (some ((start 1).descend 2)) (c.advance 1) := by
    cbv
  have hinner : ((start 1).descend 2).step ⟨3, 65536⟩ (c.advance 1) =
      .ok (some (((start 1).descend 2).descend 1)) (c.advance 2) := by
    cbv
  have howes : (start 1).Owes ⟨3, 65536⟩ c [1, 2] (c.advance 2) :=
    .reading (.step (.step .refl houter) hinner)
  obtain ⟨-, -, hbounds⟩ := run_within_input ⟨3, 65536⟩ 1 c
  exact ⟨howes, (hbounds _ _ howes).2⟩

end AtomicGroups.Wire.Walk
