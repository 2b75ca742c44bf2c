import Mathlib
import AtomicGroups.Proofs.Wire.Descent
import AtomicGroups.Wire.Entries

/-!
# Reading under looser limits

`p'.Relaxes p` says that the reading step `p'` comes to what `p` comes to, wherever `p` does not
fail for a limit.  The relation is kept by running one step after another (`Relaxes.bind`), so two
readers that differ in their limits stay in lockstep up to the first error that a limit causes.
-/

namespace AtomicGroups

/-- Whether an error says that a limit was exceeded. -/
def DecodeError.IsLimit : DecodeError → Prop
  | .depthLimitExceeded _ _ | .containerTooLarge _ _ _ => True
  | _ => False

namespace Wire

namespace Reader

variable {α β : Type}

/-- Where `p` does not fail for a limit, `p'` has the same outcome. -/
def Relaxes (p' p : Reader α) : Prop :=
  ∀ c, p' c = p c ∨ ∃ e d, p c = .error e d ∧ e.IsLimit

theorem Relaxes.refl (p : Reader α) : Relaxes p p := fun _ => .inl rfl

theorem Relaxes.bind {p p' : Reader α} {f f' : α → Reader β} (hp : Relaxes p' p)
    (hf : ∀ a, Relaxes (f' a) (f a)) : Relaxes (p' >>= f') (p >>= f) := by
  intro c
  rcases hp c with heq | ⟨e, d, h, he⟩
  · cases h : p c with
    | ok a d =>
      rw [bind_of_ok h, bind_of_ok (heq.trans h)]
      exact hf a d
    | error e d =>
      rw [bind_of_error h, bind_of_error (heq.trans h)]
      exact .inl rfl
  · exact .inr ⟨e, d, bind_of_error h, he⟩

theorem Relaxes.spanned {p p' : Reader Unit} (hp : Relaxes p' p) :
    Relaxes (spanned p') (spanned p) := by
  intro c
  unfold Reader.spanned
  rcases hp c with heq | ⟨e, d, h, he⟩
  · rw [heq]
    exact .inl rfl
  · rw [h]
    exact .inr ⟨e, d, rfl, he⟩

theorem Relaxes.parse {p p' : Reader α} (hp : Relaxes p' p) (bs : Bytes) :
    p'.parse bs = p.parse bs ∨ ∃ e, p.parse bs = .error e ∧ e.IsLimit := by
  unfold Reader.parse
  rcases hp (Cursor.start bs) with heq | ⟨e, d, h, he⟩
  · rw [heq]
    exact .inl rfl
  · rw [h]
    exact .inr ⟨e, rfl, he⟩

end Reader

/-! ## Steps and walks -/

open Reader

section

variable {limits limits' : Limits} (hdepth : limits.maxDepth ≤ limits'.maxDepth)
  (hmax : limits.maxEntries ≤ limits'.maxEntries)

include hdepth in
theorem Reader.relaxes_checkDepth (start level : Nat) :
    Relaxes (checkDepth limits' start level) (checkDepth limits start level) := by
  intro c
  unfold checkDepth
  by_cases h : limits.maxDepth ≤ level
  · rw [if_pos h]
    exact .inr ⟨_, c, rfl, trivial⟩
  · rw [if_neg h, if_neg fun h' => h (hdepth.trans h')]
    exact .inl rfl

include hmax in
/-- The number of entries is checked before the bytes that are left, so the two steps differ only
where the stricter limit is exceeded. -/
theorem Reader.relaxes_checkRoom (start length items : Nat) :
    Relaxes (checkRoom limits' start length items) (checkRoom limits start length items) := by
  intro c
  unfold checkRoom
  by_cases h : limits.maxEntries < length
  · rw [if_pos h]
    exact .inr ⟨_, c, rfl, trivial⟩
  · rw [if_neg h, if_neg fun h' => h (hmax.trans_lt h')]
    exact .inl rfl

include hdepth hmax

theorem Reader.relaxes_container (start level length width : Nat) :
    Relaxes (container limits' start level length width)
      (container limits start level length width) :=
  (relaxes_checkDepth hdepth _ _).bind fun _ => (relaxes_checkRoom hmax _ _ _).bind fun _ => .refl _

theorem Reader.relaxes_header (level : Nat) :
    Relaxes (header limits' level) (header limits level) := by
  refine (Relaxes.refl offset).bind fun start => (Relaxes.refl byte).bind fun tag => ?_
  cases Format.ofByte tag with
  | array k | map k =>
    exact (Relaxes.refl (count k)).bind fun n => relaxes_container hdepth hmax _ _ _ _
  | fixed | string | binary | extension | reserved => exact .refl _

theorem Reader.relaxes_mapHeader : Relaxes (mapHeader limits') (mapHeader limits) := by
  refine (Relaxes.refl offset).bind fun start => (Relaxes.refl byte).bind fun tag => ?_
  cases Format.ofByte tag with
  | map k =>
    exact (Relaxes.refl (count k)).bind fun n => (relaxes_checkDepth hdepth _ _).bind fun _ =>
      (relaxes_checkRoom hmax _ _ _).bind fun _ => .refl _
  | fixed | string | binary | extension | array | reserved => exact .refl _

theorem Walk.relaxes_step (w : Walk) : Relaxes (w.step limits') (w.step limits) :=
  (relaxes_header hdepth hmax _).bind fun _ => .refl _

/-- Two walks under different limits take the same steps until a limit stops one of them. -/
theorem Walk.relaxes_run (w : Walk) : Relaxes (w.run limits') (w.run limits) := by
  intro c
  fun_induction run limits w c with
  | case1 w c c' h =>
    rcases relaxes_step hdepth hmax w c with heq | ⟨e, d, he, -⟩
    · exact .inl (run_of_step_none (heq.trans h))
    · cases h.symm.trans he
  | case2 w c w' c' h _ ih =>
    rcases relaxes_step hdepth hmax w c with heq | ⟨e, d, he, -⟩
    · rw [run_of_step_some (heq.trans h)]
      exact ih
    · cases h.symm.trans he
  | case3 w c e c' h =>
    rcases relaxes_step hdepth hmax w c with heq | ⟨e', d, he, hlimit⟩
    · exact .inl (run_of_step_error (heq.trans h))
    · cases h.symm.trans he
      exact .inr ⟨_, _, rfl, hlimit⟩

theorem Reader.relaxes_value (level : Nat) : Relaxes (value limits' level) (value limits level) :=
  (Walk.relaxes_run hdepth hmax _).spanned

end

end Wire

end AtomicGroups
