import Mathlib
import AtomicGroups.Proofs.Wire.Bounds
import AtomicGroups.Proofs.Wire.Checked

/-!
# Sessions with words

A session on a buffer of less than 2⁶³ bytes has no faults, whatever its limits and its calls are
(`Checked.outcomes_without_fault`).  The walk over a value needs an invariant for that: the level at which it
reads a header is at most that of the value or the greatest depth allowed, and what it owes is
positive for each open container (`Walk.IsBounded`).
-/

namespace AtomicGroups.Wire.Checked

/-! ## Walks -/

/-- Closing containers has a result if each of them owes something, and it is that of closing them
with numbers. -/
theorem exists_close {pending : List UInt64} (h : ∀ owed ∈ pending, 0 < owed.toNat) (level : Nat) :
    ∃ next, close pending = pure next ∧
      (Walk.settle level (pending.map UInt64.toNat)).map Walk.pending =
        next.map (List.map UInt64.toNat) := by
  induction pending generalizing level with
  | nil => exact ⟨none, rfl, rfl⟩
  | cons owed outer ih =>
    obtain ⟨howed, houter⟩ := List.forall_mem_cons.1 h
    obtain ⟨left, hsub, hleft⟩ := exists_sub (a := owed) (b := 1) howed
    change left.toNat = owed.toNat - 1 at hleft
    simp only [close, Walk.settle, List.map_cons, hsub, pure_bind]
    by_cases hzero : left = 0
    · have hle : owed.toNat ≤ 1 := by
        have : left.toNat = 0 := congrArg UInt64.toNat hzero
        omega
      rw [if_pos hzero, if_pos hle]
      exact ih houter (level - 1)
    · have hlt : ¬ owed.toNat ≤ 1 := by
        have : left.toNat ≠ 0 := fun heq => hzero (UInt64.toNat_inj.1 heq)
        omega
      rw [if_neg hzero, if_neg hlt]
      exact ⟨some (left :: outer), rfl, by simp [hleft]⟩

/-- The level at which a walk reads a header is a sum that fits a word: a container is opened only
where fewer than the greatest depth are open. -/
theorem exists_level {limits : WordLimits} {level : UInt64} {pending : List UInt64} {w : Walk}
    (hpending : w.pending = pending.map UInt64.toNat)
    (hw : w.IsBounded limits.toLimits level.toNat) : ∃ depth around,
      word pending.length = pure depth ∧ add level depth = pure around ∧ w.level = around.toNat := by
  have hlevel : w.level = level.toNat + pending.length := by
    rw [hw.above, hpending, List.length_map]
  have hfits : w.level < 2 ^ 64 :=
    hw.level_le.trans_lt (max_lt level.toNat_lt limits.maxDepth.toNat_lt)
  obtain ⟨depth, hdepth, hn⟩ := exists_word (n := pending.length) (by omega)
  obtain ⟨around, haround, hsum⟩ := exists_add (a := level) (b := depth) (by omega)
  exact ⟨depth, around, hdepth, haround, by omega⟩

/-- What is owed behind a header that announces some items: those of a container that it opens, or
what is left once an item is counted as read. -/
def next (items : UInt64) (pending : List UInt64) : Step (Option (List UInt64)) :=
  if items = 0 then close pending else return some (items :: pending)

theorem exists_next {limits : Limits} {base : Nat} {pending : List UInt64} {w : Walk}
    (hpending : w.pending = pending.map UInt64.toNat) (hw : w.IsBounded limits base)
    (items : UInt64) : ∃ later, next items pending = pure later ∧
      (if items.toNat = 0 then Walk.settle w.level w.pending
        else some (w.descend items.toNat)).map Walk.pending = later.map (List.map UInt64.toNat) := by
  unfold next
  by_cases hzero : items = 0
  · rw [if_pos hzero, if_pos (show items.toNat = 0 from congrArg UInt64.toNat hzero), hpending]
    refine exists_close (fun owed hmem => hw.positive _ ?_) w.level
    rw [hpending]
    exact List.mem_map_of_mem hmem
  · have hzero' : items.toNat ≠ 0 := fun heq => hzero (UInt64.toNat_inj.1 heq)
    rw [if_neg hzero, if_neg hzero']
    refine ⟨some (items :: pending), rfl, ?_⟩
    simp [Walk.descend, hpending]

theorem walk_succ (buffer : Bytes) (limits : WordLimits) (level : UInt64) (reads : Nat)
    (pending : List UInt64) : walk buffer limits level (reads + 1) pending = (do
      let items ← header buffer limits (← add level (← word pending.length))
      match ← next items pending with
      | none => return ()
      | some pending => walk buffer limits level reads pending) := by
  rw [walk]
  refine bind_congr fun depth => bind_congr fun around => bind_congr fun items => ?_
  unfold next
  split_ifs
  · rfl
  · rw [pure_bind]

section

variable {buffer : Bytes} (hbuffer : buffer.length < 2 ^ 63) (limits : WordLimits)

include hbuffer

/-- A walk with words comes to what the walk with numbers comes to, with as many headers to read as
there are bytes left and one more.  The induction is on that number. -/
theorem agrees_walk (level : UInt64) (reads : Nat) : ∀ (pending : List UInt64) (w : Walk)
    (pos : UInt64), pos.toNat ≤ buffer.length → buffer.length - pos.toNat < reads →
      w.pending = pending.map UInt64.toNat → w.IsBounded limits.toLimits level.toNat →
      Agrees buffer (fun _ _ => True) (walk buffer limits level reads pending pos)
        (w.run limits.toLimits (cursorAt buffer pos)) := by
  induction reads with
  | zero => exact fun _ _ _ _ hreads => absurd hreads (Nat.not_lt_zero _)
  | succ reads ih =>
    intro pending w pos hpos hreads hpending hw
    obtain ⟨depth, around, hdepth, haround, hlevel⟩ := exists_level hpending hw
    have hheader := refines_header hbuffer limits around pos hpos
    rw [← hlevel] at hheader
    rw [walk_succ, hdepth, pure_bind, haround, pure_bind]
    generalize hm : header buffer limits around pos = r' at hheader
    generalize hr : Reader.header limits.toLimits w.level (cursorAt buffer pos) = r at hheader
    cases hheader with
    | refused hpos' =>
      have hstep : w.step limits.toLimits (cursorAt buffer pos) = _ := Reader.bind_of_error hr
      rw [bind_of_error hm, Walk.run_of_step_error hstep]
      exact .refused hpos'
    | @ok items _ pos' hitems hpos' =>
      subst hitems
      have hless := Walk.offset_lt_of_header hr
      rw [offset_cursorAt, offset_cursorAt] at hless
      have hstep := Walk.step_of_header limits.toLimits w hr
      obtain ⟨later, hnext, howed⟩ := exists_next hpending hw items
      generalize hafter : (if items.toNat = 0 then Walk.settle w.level w.pending
        else some (w.descend items.toNat)) = after at hstep howed
      rw [bind_of_ok hm, hnext, pure_bind]
      cases later with
      | none =>
        rw [Option.map_none, Option.map_eq_none_iff] at howed
        rw [howed] at hstep
        rw [Walk.run_of_step_none hstep]
        exact .ok trivial hpos'
      | some later =>
        obtain ⟨w', rfl, hlater⟩ := Option.map_eq_some_iff.1 howed
        rw [Walk.run_of_step_some hstep]
        exact ih later w' pos' hpos' (by omega) hlater (hw.step hstep)

theorem refines_value (level : UInt64) : Refines buffer (value buffer limits level)
    (Reader.value limits.toLimits level.toNat) Eq := by
  intro pos hpos
  have hwalk := agrees_walk hbuffer limits level (buffer.length - pos.toNat + 1) []
    (Walk.start level.toNat) pos hpos (Nat.lt_succ_self _) rfl (Walk.isBounded_start _ _)
  have hforward := Walk.forward_run limits.toLimits (Walk.start level.toNat) (cursorAt buffer pos)
  unfold value Reader.value Reader.spanned
  change Agrees buffer Eq ((walk buffer limits level (buffer.length - pos.toNat + 1) [] >>= fun _ =>
    get >>= fun stop => slice buffer pos stop) pos) _
  generalize hm : walk buffer limits level (buffer.length - pos.toNat + 1) [] pos = r' at hwalk
  generalize (Walk.start level.toNat).run limits.toLimits (cursorAt buffer pos) = r
    at hwalk hforward ⊢
  cases hwalk with
  | refused hpos' =>
    rw [bind_of_error hm]
    exact .refused hpos'
  | @ok _ _ stop _ hstop =>
    have hle := hforward.offset_le
    change (cursorAt buffer pos).offset ≤ (cursorAt buffer stop).offset at hle
    rw [offset_cursorAt, offset_cursorAt] at hle
    rw [bind_of_ok hm]
    change Agrees buffer Eq (slice buffer pos stop stop) _
    rw [slice, check_eq ⟨hle, hstop⟩]
    refine .ok ?_ hstop
    rw [offset_cursorAt, offset_cursorAt]
    rfl

/-! ## Calls -/

theorem refines_run (call : Call) :
    Refines buffer (run buffer limits call) (call.run limits.toLimits) Eq := by
  cases call with
  | mapHeader =>
    exact (refines_mapHeader hbuffer limits).bind fun w n h => refines_pure (congrArg Answer.count h)
  | key => exact (refines_key hbuffer).bind fun _ _ h => refines_pure (congrArg Answer.key h)
  | value level =>
    exact (refines_value hbuffer limits level).bind fun _ _ h => refines_pure (congrArg Answer.span h)

/-! ## Sessions -/

theorem agrees_outcomes (calls : List Call) : ∀ pos : UInt64, pos.toNat ≤ buffer.length →
    List.Forall₂ (Agrees buffer Eq) (outcomes buffer limits pos calls)
      (Wire.outcomes limits.toLimits (cursorAt buffer pos) calls) := by
  induction calls with
  | nil => exact fun _ _ => .nil
  | cons call later ih =>
    intro pos hpos
    have hcall := refines_run hbuffer limits call pos hpos
    unfold outcomes Wire.outcomes
    generalize run buffer limits call pos = r' at hcall ⊢
    generalize call.run limits.toLimits (cursorAt buffer pos) = r at hcall ⊢
    cases hcall with
    | ok h hpos' => exact .cons (.ok h hpos') (ih _ hpos')
    | refused hpos' => exact .cons (.refused hpos') (ih _ hpos')

omit hbuffer in
/-- What agrees has no fault, and does not go beyond the buffer. -/
theorem forall_of_agrees {session : List (Result Answer)} {numbers : List (Outcome Answer)}
    (h : List.Forall₂ (Agrees buffer Eq) session numbers) : ∀ outcome ∈ session,
      (∀ pos, outcome ≠ .error .fault pos) ∧ outcome.passed.toNat ≤ buffer.length := by
  induction h with
  | nil => exact List.forall_mem_nil _
  | cons h _ ih => exact List.forall_mem_cons.2 ⟨⟨h.ne_fault, h.passed_le⟩, ih⟩

/-- No call goes back, and so no session does. -/
theorem isChain_outcomes (calls : List Call) : ∀ pos : UInt64, pos.toNat ≤ buffer.length →
    List.IsChain (· ≤ ·) (pos :: (outcomes buffer limits pos calls).map Result.passed) := by
  induction calls with
  | nil => exact fun pos _ => .singleton pos
  | cons call later ih =>
    intro pos hpos
    have hcall := refines_run hbuffer limits call pos hpos
    have hforward := (call.forward_run limits.toLimits (cursorAt buffer pos)).offset_le
    unfold outcomes
    generalize run buffer limits call pos = r' at hcall ⊢
    generalize call.run limits.toLimits (cursorAt buffer pos) = r at hcall hforward
    cases hcall with
    | ok _ hpos' | refused hpos' =>
      change (cursorAt buffer pos).offset ≤ (cursorAt buffer _).offset at hforward
      rw [offset_cursorAt, offset_cursorAt] at hforward
      exact .cons_cons (UInt64.le_iff_toNat_le.2 hforward) (ih _ hpos')

end

/-- A session on a buffer of less than 2⁶³ bytes has no fault, whatever its limits and its calls
are: every sum, difference and product fits a word, and every slice lies in the buffer.  Each call,
also one behind a call that was refused, comes to what it comes to with numbers.  The place in the
buffer never goes back and stays within the buffer, and a walk reads a header inside at most as many
open containers as lie around its value or are allowed. -/
theorem outcomes_without_fault (buffer : Bytes) (hbuffer : buffer.length < 2 ^ 63)
    (limits : WordLimits) (calls : List Call) :
    (∀ outcome ∈ outcomes buffer limits 0 calls, ∀ pos, outcome ≠ .error .fault pos) ∧
    List.Forall₂ (Agrees buffer Eq) (outcomes buffer limits 0 calls)
      (Wire.outcomes limits.toLimits (Cursor.start buffer) calls) ∧
    List.IsChain (· ≤ ·) (0 :: (outcomes buffer limits 0 calls).map Result.passed) ∧
    (∀ outcome ∈ outcomes buffer limits 0 calls, outcome.passed.toNat ≤ buffer.length) ∧
    ∀ (level : UInt64) c w d, (Walk.start level.toNat).Reaches limits.toLimits c w d →
      c.Leads d ∧ w.level = level.toNat + w.pending.length ∧
        w.level ≤ max level.toNat limits.maxDepth.toNat := by
  have hagrees := agrees_outcomes hbuffer limits calls 0 (Nat.zero_le _)
  have heach := forall_of_agrees hagrees
  refine ⟨fun outcome hmem => (heach outcome hmem).1, hagrees,
    isChain_outcomes hbuffer limits calls 0 (Nat.zero_le _),
    fun outcome hmem => (heach outcome hmem).2, fun level c w d h => ?_⟩
  have hbounded := (Walk.isBounded_start limits.toLimits level.toNat).reaches h
  exact ⟨h.leads, hbounded.above, hbounded.level_le⟩

/-- With the greatest limits that words have, an array inside the greatest number of open containers
is refused behind its type byte.  The next call goes on from there, and reads an array inside one
open container less. -/
theorem outcomes_without_fault_greatest :
    let buffer : Bytes := [0x81, 0xa1, 0x61, 0x91, 0x91, 0x01]
    let limits : WordLimits := ⟨0xffffffffffffffff, 0xffffffffffffffff⟩
    let calls : List Call :=
      [.mapHeader, .key, .value 0xffffffffffffffff, .value 0xfffffffffffffffe]
    let session : List (Result Answer) := [.ok (.count 1) 1, .ok (.key "a") 3,
      .error (.refused (.depthLimitExceeded 3 0xffffffffffffffff)) 4, .ok (.span [0x91, 0x01]) 6]
    buffer.length < 2 ^ 63 ∧ outcomes buffer limits 0 calls = session ∧
      (∀ outcome ∈ session, ∀ pos, outcome ≠ .error .fault pos) ∧
      List.Forall₂ (Agrees buffer Eq) session
        (Wire.outcomes limits.toLimits (Cursor.start buffer) calls) ∧
      List.IsChain (· ≤ ·) (0 :: session.map Result.passed) := by
  have hsession : outcomes [0x81, 0xa1, 0x61, 0x91, 0x91, 0x01]
      ⟨0xffffffffffffffff, 0xffffffffffffffff⟩ 0
      [.mapHeader, .key, .value 0xffffffffffffffff, .value 0xfffffffffffffffe] =
      [.ok (.count 1) 1, .ok (.key "a") 3,
        .error (.refused (.depthLimitExceeded 3 0xffffffffffffffff)) 4,
        .ok (.span [0x91, 0x01]) 6] := rfl
  intro buffer limits calls session
  have hbuffer : buffer.length < 2 ^ 63 := by decide
  obtain ⟨hfault, hagrees, hchain, -⟩ := outcomes_without_fault buffer hbuffer limits calls
  rw [show outcomes buffer limits 0 calls = session from hsession] at hfault hagrees hchain
  exact ⟨hbuffer, hsession, hfault, hagrees, hchain⟩

end AtomicGroups.Wire.Checked
