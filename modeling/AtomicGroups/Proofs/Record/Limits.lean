import Mathlib
import AtomicGroups.Proofs.Record.Decoding
import AtomicGroups.Proofs.Wire.Limits

/-!
# Records under looser limits

Limits decide whether a record is read, but never how.  Under looser limits the decoder gives the
same record or the same error, unless the error was that of a limit (`Record.decode_of_looser`).
-/

namespace AtomicGroups

open Wire Wire.Reader

section

variable {limits limits' : Limits} (hdepth : limits.maxDepth ≤ limits'.maxDepth)
  (hmax : limits.maxEntries ≤ limits'.maxEntries)

include hdepth hmax

theorem relaxes_readEntry (before : FieldMap) :
    Relaxes (readEntry limits' before) (readEntry limits before) :=
  (Relaxes.refl key).bind fun _ => (Relaxes.refl offset).bind fun _ =>
    (relaxes_value hdepth hmax 1).bind fun _ => .refl _

theorem relaxes_readEntries (n : Nat) (before : FieldMap) :
    Relaxes (readEntries limits' n before) (readEntries limits n before) := by
  induction n generalizing before with
  | zero => exact .refl _
  | succ n ih => exact (relaxes_readEntry hdepth hmax before).bind ih

theorem relaxes_readRecord : Relaxes (readRecord limits') (readRecord limits) :=
  (relaxes_mapHeader hdepth hmax).bind fun n => (relaxes_readEntries hdepth hmax n ∅).bind
    fun _ => .refl _

end

namespace Record

/-- Under looser limits, what is a record stays the same record, and what is none for another cause
than a limit is none for the same cause.  So no two limits make different records of the same
bytes. -/
theorem decode_of_looser (b : Bytes) :
    (∀ limits limits' : Limits, limits.maxDepth ≤ limits'.maxDepth →
      limits.maxEntries ≤ limits'.maxEntries →
      (∀ r, decode limits b = .ok r → decode limits' b = .ok r) ∧
      ∀ e, decode limits b = .error e → ¬ e.IsLimit → decode limits' b = .error e) ∧
    ∀ limits limits' r r', decode limits b = .ok r → decode limits' b = .ok r' → r = r' := by
  refine ⟨fun limits limits' hdepth hmax => ?_, fun limits limits' r r' h h' => ?_⟩
  · rcases (relaxes_readRecord hdepth hmax).parse b with heq | ⟨e, he, hlimit⟩
    · exact ⟨fun r h => heq.trans h, fun e h _ => heq.trans h⟩
    · refine ⟨fun r h => ?_, fun e' h' hother => ?_⟩
      · cases h.symm.trans he
      · cases h'.symm.trans he
        exact absurd hlimit hother
  · -- both are what the bytes are under the larger one of either limit
    let loosest : Limits := ⟨max limits.maxDepth limits'.maxDepth,
      max limits.maxEntries limits'.maxEntries⟩
    have hr : decode loosest b = .ok r :=
      decode_mono limits (le_max_left _ _) (le_max_left _ _) h
    have hr' : decode loosest b = .ok r' :=
      decode_mono limits' (le_max_right _ _) (le_max_right _ _) h'
    exact Except.ok.inj (hr.symm.trans hr')

/-- A record whose field is an array, under the least limits that allow it and under the usual ones;
and one with a byte in the array that starts no value. -/
theorem decode_of_looser_array :
    let b : Bytes := [0x81, 0xa1, 0x61, 0x91, 0x01]
    let b' : Bytes := [0x81, 0xa1, 0x61, 0x91, 0xc1]
    (∃ r, decode ⟨2, 1⟩ b = .ok r ∧ decode {} b = .ok r) ∧
      decode ⟨2, 1⟩ b' = .error (.reservedType 4 0xc1) ∧
      decode {} b' = .error (.reservedType 4 0xc1) := by
  intro b b'
  have hok : (decode ⟨2, 1⟩ b).isOk = true := by cbv
  have herror : decode ⟨2, 1⟩ b' = .error (.reservedType 4 0xc1) := by cbv
  refine ⟨?_, herror, ((decode_of_looser b').1 ⟨2, 1⟩ {} (by decide) (by decide)).2 _ herror id⟩
  cases h : decode ⟨2, 1⟩ b with
  | ok r => exact ⟨r, rfl, ((decode_of_looser b).1 ⟨2, 1⟩ {} (by decide) (by decide)).1 r h⟩
  | error e =>
    rw [h] at hok
    cases hok

end Record

end AtomicGroups
