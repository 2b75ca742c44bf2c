import Mathlib
import AtomicGroups.Sha512.Session

/-!
# Digests of a session

A call leaves in each place a hasher that was fed what the calls so far say
(`Call.run_hashersFed`), so each digest is the hash of that (`digests_of_session`).
-/

namespace AtomicGroups.Sha512

/-! ## Hashers by what they were fed -/

namespace Fed

/-- A hasher that was fed exactly that. -/
def hasher (f : Fed) : Hasher := .fed f.domain (f.domain ++ f.pieces.flatten)

variable (f : Fed)

theorem digest_hasher : f.hasher.digest = hash256 (f.domain ++ f.pieces.flatten) :=
  Hasher.digest_fed ..

theorem hasher_start (domain : Bytes) : hasher ⟨domain, []⟩ = .start domain := by
  rw [Hasher.start_eq_fed, hasher, List.flatten_nil, List.append_nil]

theorem hasher_update (piece : Bytes) :
    hasher ⟨f.domain, f.pieces ++ [piece]⟩ = f.hasher.update piece := by
  unfold hasher
  rw [Hasher.update_fed, List.flatten_concat, List.append_assoc]

theorem hasher_reset : hasher ⟨f.domain, []⟩ = f.hasher.reset :=
  hasher_start f.domain

end Fed

/-- Two updates in a row are one with both pieces. -/
theorem Hasher.update_update (h : Hasher) (piece piece' : Bytes) :
    (h.update piece).update piece' = h.update (piece ++ piece') := by
  simp only [update, ← List.append_assoc, ← absorb_append, ← leftover_append_leftover,
    List.length_append, Nat.add_assoc]

/-! ## Calls -/

/-- The hashers that were fed what the calls say, the last one in front. -/
def hashersFed (before : List Call) : Hashers := fun place => (fedTo before place).map Fed.hasher

/-- One more call leaves hashers that were fed what the calls say. -/
theorem Call.run_hashersFed (call : Call) (before : List Call) :
    call.run (hashersFed before) = hashersFed (call :: before) := by
  funext place
  unfold hashersFed
  cases call with
  | start p domain =>
    rw [run, fedTo, Function.update_apply]
    split_ifs
    · rw [Option.map_some, Fed.hasher_start]
    · rfl
  | update p piece =>
    rw [run, fedTo, Function.update_apply]
    split_ifs
    · cases fedTo before p with
      | none => rfl
      | some f => exact congrArg some (f.hasher_update piece).symm
    · rfl
  | reset p =>
    rw [run, fedTo, Function.update_apply]
    split_ifs
    · cases fedTo before p with
      | none => rfl
      | some f => exact congrArg some f.hasher_reset.symm
    · rfl
  | clone p copy =>
    rw [run, fedTo, Function.update_apply]
    split_ifs <;> rfl
  | digest p => rfl

/-- A call gives what it gives behind the calls in front of it. -/
theorem getElem?_answers (before earlier : List Call) (call : Call) (later : List Call) :
    (answers (hashersFed before) (earlier ++ call :: later))[earlier.length]? =
      some (call.answer (hashersFed (earlier.reverse ++ before))) := by
  induction earlier generalizing before with
  | nil => rfl
  | cons first earlier ih =>
    rw [List.cons_append, answers, List.length_cons, List.getElem?_cons_succ,
      first.run_hashersFed, ih, List.reverse_cons, List.append_assoc]
    rfl

theorem answer_digest_hashersFed (before : List Call) (place : Nat) :
    (Call.digest place).answer (hashersFed before) =
      (fedTo before place).map fun f => hash256 (f.domain ++ f.pieces.flatten) := by
  rw [Call.answer, hashersFed, Option.map_map]
  exact congrArg (Option.map · _) (funext Fed.digest_hasher)

section

variable (hashers : Hashers) (place : Nat) (piece : Bytes)

theorem Call.run_update_update (piece' : Bytes) :
    (update place piece').run ((update place piece).run hashers) =
      (update place (piece ++ piece')).run hashers := by
  simp only [run]
  rw [Function.update_idem, Function.update_self, Option.map_map]
  congr 2
  exact funext fun h => h.update_update piece piece'

theorem Call.run_reset_update :
    (reset place).run ((update place piece).run hashers) = (reset place).run hashers := by
  simp only [run]
  rw [Function.update_idem, Function.update_self, Option.map_map]
  rfl

/-- Neither a hasher nor its copy is fed what the other one is. -/
theorem Call.run_update_clone {copy : Nat} (hne : place ≠ copy) :
    (update copy piece).run ((clone place copy).run hashers) place = hashers place ∧
      (update place piece).run ((clone place copy).run hashers) copy = hashers place := by
  simp only [run]
  rw [Function.update_of_ne hne, Function.update_of_ne hne, Function.update_of_ne hne.symm,
    Function.update_self]
  exact ⟨rfl, rfl⟩

end

/-- Whatever the calls, each digest asked for is the hash of the domain tag of the hasher and of the
pieces that it was fed.  So it matters neither where the pieces are cut nor whether digests were
asked for before, nor what came in front of a reset or what a copy is fed.  One piece gives the
tagged hash. -/
theorem digests_of_session :
    (∀ (before later : List Call) (place : Nat),
      (answers (fun _ => none) (before ++ .digest place :: later))[before.length]? =
        some ((fedTo before.reverse place).map fun f => hash256 (f.domain ++ f.pieces.flatten))) ∧
    (∀ (hashers : Hashers) (place : Nat) (piece piece' : Bytes),
      (Call.update place piece').run ((Call.update place piece).run hashers) =
        (Call.update place (piece ++ piece')).run hashers) ∧
    (∀ (hashers : Hashers) (place : Nat), (Call.digest place).run hashers = hashers) ∧
    (∀ (hashers : Hashers) (place : Nat) (piece : Bytes),
      (Call.reset place).run ((Call.update place piece).run hashers) =
        (Call.reset place).run hashers) ∧
    (∀ (hashers : Hashers) (place copy : Nat) (piece : Bytes), place ≠ copy →
      (Call.update copy piece).run ((Call.clone place copy).run hashers) place = hashers place ∧
      (Call.update place piece).run ((Call.clone place copy).run hashers) copy = hashers place) ∧
    ∀ domain payload : Bytes,
      ((Hasher.start domain).update payload).digest = tagged domain payload := by
  refine ⟨fun before later place => ?_, Call.run_update_update, fun hashers place => rfl,
    Call.run_reset_update, fun hashers place copy piece => Call.run_update_clone hashers place piece,
    fun domain payload => ?_⟩
  · have hanswer := getElem?_answers [] before (.digest place) later
    rwa [List.append_nil, answer_digest_hashersFed] at hanswer
  · rw [Hasher.start_eq_fed, Hasher.update_fed, Hasher.digest_fed, tagged]

end AtomicGroups.Sha512
