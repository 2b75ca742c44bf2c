import Mathlib
import AtomicGroups.Proofs.Wire.Reading
import AtomicGroups.Wire.Descent

/-!
# Walks and recursion

A walk over a value ends where the recursive reader `descend` does, with the same outcome and the
same cursor (`Walk.run_start`).  More generally, a walk that is under way reads the value in front
of it and then, container by container from the innermost outwards, the items that are still owed
(`Walk.run_eq`).
-/

namespace AtomicGroups.Wire

namespace Reader

/-- `descend` as a reading step. -/
def descent (limits : Limits) (level : Nat) : Reader Unit := fun c => (descend limits level c).1

/-- `descendItems` as a reading step. -/
def descentItems (limits : Limits) (level n : Nat) : Reader Unit := fun c =>
  (descendItems limits level n c).1

variable (limits : Limits)

theorem descent_eq (level : Nat) :
    descent limits level = header limits level >>= descentItems limits (level + 1) := by
  funext c
  cases h : header limits level c with
  | ok items c' =>
    rw [bind_of_ok h]
    unfold descent descend
    split
    · next h' =>
      cases h.symm.trans h'
      rfl
    · next h' => cases h.symm.trans h'
  | error e c' =>
    rw [bind_of_error h]
    unfold descent descend
    split
    · next h' => cases h.symm.trans h'
    · next h' =>
      cases h.symm.trans h'
      rfl

@[simp] theorem descentItems_zero (level : Nat) : descentItems limits level 0 = pure () := by
  funext c
  change (descendItems limits level 0 c).1 = _
  unfold descendItems
  rfl

theorem descentItems_succ (level n : Nat) :
    descentItems limits level (n + 1) =
      descent limits level >>= fun _ => descentItems limits level n := by
  funext c
  cases h : descent limits level c with
  | ok u c' =>
    rw [bind_of_ok h]
    unfold descent at h
    unfold descentItems
    conv_lhs => unfold descendItems
    split
    · next h' =>
      rw [h'] at h
      cases h
      rfl
    · next h' =>
      rw [h'] at h
      cases h
  | error e c' =>
    rw [bind_of_error h]
    unfold descent at h
    unfold descentItems
    conv_lhs => unfold descendItems
    split
    · next h' =>
      rw [h'] at h
      cases h
    · next h' =>
      rw [h'] at h
      exact h

end Reader

namespace Walk

open Reader

variable (limits : Limits)

/-- Reads the items that are still owed once one more item is complete. -/
def resume : (level : Nat) → (pending : List Nat) → Reader Unit
  | _, [] => pure ()
  | level, owed :: outer => do
    descentItems limits level (owed - 1)
    resume (level - 1) outer

/-- Where nothing is owed any more, nothing is left to read. -/
theorem resume_of_settle_none (level : Nat) (pending : List Nat)
    (h : settle level pending = none) : resume limits level pending = pure () := by
  induction pending generalizing level with
  | nil => rfl
  | cons owed outer ih =>
    unfold settle at h
    split_ifs at h with howed
    have hzero : owed - 1 = 0 := by omega
    rw [resume, hzero, descentItems_zero, pure_bind]
    exact ih _ h

/-- Where something is owed, the walk goes on with the next item. -/
theorem resume_of_settle_some (level : Nat) (pending : List Nat) (w : Walk)
    (h : settle level pending = some w) :
    resume limits level pending =
      descent limits w.level >>= fun _ => resume limits w.level w.pending := by
  induction pending generalizing level with
  | nil => cases h
  | cons owed outer ih =>
    unfold settle at h
    split_ifs at h with howed
    · have hzero : owed - 1 = 0 := by omega
      rw [resume, hzero, descentItems_zero, pure_bind]
      exact ih _ h
    · cases h
      have hsucc : owed - 1 = owed - 1 - 1 + 1 := by omega
      rw [resume, hsucc, descentItems_succ, bind_assoc]
      rfl

/-- One step of a walk, by what the header in front of it announces. -/
theorem step_of_header (w : Walk) {c c' : Cursor} {items : Nat}
    (h : header limits w.level c = .ok items c') : w.step limits c =
      .ok (if items = 0 then settle w.level w.pending else some (w.descend items)) c' := by
  unfold step
  rw [bind_of_ok h]
  rfl

section

variable {limits} {w w' : Walk} {c c' : Cursor}

theorem run_of_step_none (h : w.step limits c = .ok none c') : w.run limits c = .ok () c' := by
  unfold run
  split <;> simp_all

theorem run_of_step_some (h : w.step limits c = .ok (some w') c') :
    w.run limits c = w'.run limits c' := by
  conv_lhs => unfold run
  split <;> simp_all

theorem run_of_step_error {e : DecodeError} (h : w.step limits c = .error e c') :
    w.run limits c = .error e c' := by
  unfold run
  split <;> simp_all

end

/-- A walk reads the value in front of it and then what is still owed. -/
theorem run_eq (w : Walk) : w.run limits =
    descent limits w.level >>= fun _ => resume limits w.level w.pending := by
  funext c
  rw [descent_eq, bind_assoc]
  fun_induction run limits w c with
  | case1 w c c' h =>
    cases hc : header limits w.level c with
    | ok items c₁ =>
      rw [step_of_header limits w hc] at h
      injection h with hw hcursor
      subst hcursor
      split_ifs at hw with hzero
      rw [bind_of_ok hc, hzero, descentItems_zero, pure_bind,
        resume_of_settle_none limits _ _ hw]
      rfl
    | error e c₁ =>
      unfold step at h
      rw [bind_of_error hc] at h
      cases h
  | case2 w c w' c' h _ ih =>
    cases hc : header limits w.level c with
    | ok items c₁ =>
      rw [step_of_header limits w hc] at h
      injection h with hw hcursor
      subst hcursor
      rw [ih, bind_of_ok hc, ← bind_assoc, ← descent_eq]
      split_ifs at hw with hzero
      · -- the item is complete, so the walk goes on with the next one that is owed
        rw [hzero, descentItems_zero, pure_bind, resume_of_settle_some limits _ _ _ hw]
      · -- the items of the container that was opened come before what was owed already
        obtain ⟨n, rfl⟩ := Nat.exists_eq_succ_of_ne_zero hzero
        cases hw
        rw [descentItems_succ, bind_assoc]
        rfl
    | error e c₁ =>
      unfold step at h
      rw [bind_of_error hc] at h
      cases h
  | case3 w c e c' h =>
    cases hc : header limits w.level c with
    | ok items c₁ =>
      rw [step_of_header limits w hc] at h
      cases h
    | error e₁ c₁ =>
      unfold step at h
      rw [bind_of_error hc] at h ⊢
      cases h
      rfl

/-- A walk over one value is the recursive reader: the same outcome and the same cursor. -/
theorem run_start (level : Nat) : (start level).run limits = descent limits level := by
  rw [run_eq]
  change descent limits level >>= (fun _ => pure ()) = _
  exact bind_pure _

end Walk

end AtomicGroups.Wire
