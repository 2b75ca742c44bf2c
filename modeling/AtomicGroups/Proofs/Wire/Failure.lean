import Mathlib
import AtomicGroups.Proofs.Wire.Reading

/-!
# What a reading step fails for

`Fails step F` bounds the failures of a reading step without running it: if the step fails with `e`
at an offset, in front of bytes `rest`, then `F offset rest e` holds.  Such a bound is put together
from those of the parts of a step (`Fails.bind`): a step that comes second fails behind the bytes
that the first one accepts.
-/

namespace AtomicGroups.Wire

/-- The input ends too early, somewhere behind an offset. -/
def IsShort (offset : Nat) (rest : Bytes) (e : DecodeError) : Prop :=
  ∃ n needed, n ≤ rest.length ∧ 0 < needed ∧ e = .endOfInput (offset + n) needed

theorem IsShort.behind {offset : Nat} {b rest : Bytes} {e : DecodeError}
    (h : IsShort (offset + b.length) rest e) : IsShort offset (b ++ rest) e := by
  obtain ⟨n, needed, hn, hpos, rfl⟩ := h
  refine ⟨b.length + n, needed, ?_, hpos, by rw [Nat.add_assoc]⟩
  rw [List.length_append]
  omega

namespace Reader

variable {α β : Type}

/-- If a step fails at the cursor `c`, then for what `F` allows there. -/
def FailsAt (step : Reader α) (c : Cursor) (F : Nat → Bytes → DecodeError → Prop) : Prop :=
  ∀ e d, step c = .error e d → F c.offset c.rest e

/-- A bound on the failures of a step wherever it starts. -/
def Fails (step : Reader α) (F : Nat → Bytes → DecodeError → Prop) : Prop :=
  ∀ c, FailsAt step c F

section

variable {p step : Reader α} {f : α → Reader β} {c : Cursor}
  {F F' : Nat → Bytes → DecodeError → Prop}
  {G : Bytes → Bytes → α → Prop} {H : α → Nat → Bytes → DecodeError → Prop}

theorem FailsAt.mono (h : FailsAt step c F) (hF : ∀ offset rest e, F offset rest e →
    F' offset rest e) : FailsAt step c F' :=
  fun e d he => hF _ _ _ (h e d he)

theorem Fails.mono (h : Fails step F) (hF : ∀ offset rest e, F offset rest e →
    F' offset rest e) : Fails step F' :=
  fun c => (h c).mono hF

/-! ## One step after another -/

/-- Either the first step fails, or the second one does behind what the first one accepts. -/
theorem FailsAt.bind (hp : ReadsAt p c G) (hF : FailsAt p c F)
    (hf : ∀ a d, p c = .ok a d → FailsAt (f a) d (H a)) :
    FailsAt (p >>= f) c fun offset rest e => F offset rest e ∨ ∃ b later a,
      rest = b ++ later ∧ G b later a ∧ H a (offset + b.length) later e := by
  intro e d he
  cases h : p c with
  | ok a c' =>
    rw [bind_of_ok h] at he
    obtain ⟨b, hrest, rfl, hG⟩ := (hp a c').1 h
    exact .inr ⟨b, _, a, hrest, hG, hf a _ h e d he⟩
  | error e' c' =>
    rw [bind_of_error h] at he
    cases he
    exact .inl (hF e d h)

theorem Fails.bind (hp : Reads p G) (hF : Fails p F) (hf : ∀ a, Fails (f a) (H a)) :
    Fails (p >>= f) fun offset rest e => F offset rest e ∨ ∃ b later a,
      rest = b ++ later ∧ G b later a ∧ H a (offset + b.length) later e :=
  fun c => (hF c).bind (hp c) fun a d _ => hf a d

theorem fails_pure (a : α) : Fails (pure a) fun _ _ _ => False := by
  intro c e d h
  cases h

theorem fails_throw (e : DecodeError) : Fails (throw e : Reader α) fun _ _ e' => e' = e := by
  intro c e' d h
  cases h
  rfl

theorem fails_offset_bind {f : Nat → Reader α} {F : Nat → Nat → Bytes → DecodeError → Prop}
    (hf : ∀ start, Fails (f start) (F start)) :
    Fails (offset >>= f) fun offset rest e => F offset offset rest e :=
  fun c => hf c.offset c

theorem Fails.spanned {p : Reader Unit} (h : Fails p F) : Fails (spanned p) F := by
  intro c e d he
  unfold Reader.spanned at he
  split at he
  · cases he
  · next hp =>
    cases he
    exact h c e d hp

/-- If a step that may fail short comes first, so may the two of them. -/
theorem Fails.bind_short {K : Nat → Bytes → DecodeError → Prop} (hp : Reads p G)
    (hF : Fails p IsShort) (hf : ∀ a, Fails (f a) (H a))
    (hshort : ∀ offset rest e, IsShort offset rest e → K offset rest e)
    (hnext : ∀ offset b later a e, G b later a → H a (offset + b.length) later e →
      K offset (b ++ later) e) : Fails (p >>= f) K := by
  refine (Fails.bind hp hF hf).mono fun offset rest e h => ?_
  rcases h with h | ⟨b, later, a, rfl, hG, h⟩
  · exact hshort offset rest e h
  · exact hnext offset b later a e hG h

end

/-! ## Steps -/

theorem fails_byte : Fails byte IsShort := by
  intro c e d h
  unfold byte at h
  split at h
  · cases h
    exact ⟨0, 1, Nat.zero_le _, Nat.one_pos, rfl⟩
  · cases h

/-- A step that notes where it starts and reads a byte fails short, or for what follows the byte. -/
theorem fails_offset_byte_bind {f : Nat → UInt8 → Reader α}
    {K : Nat → Bytes → DecodeError → Prop}
    (hshort : ∀ offset rest e, IsShort offset rest e → K offset rest e)
    (hf : ∀ start tag, Fails (f start tag) fun offset rest e => offset = start + 1 →
      K start (tag :: rest) e) : Fails (do let start ← offset; let tag ← byte; f start tag) K := by
  refine (fails_offset_bind (F := fun start offset rest e => offset = start → K start rest e)
    fun start => ?_).mono fun _ _ _ h => h rfl
  refine fails_byte.bind_short reads_byte (hf start) ?_ ?_
  · rintro _ rest e h rfl
    exact hshort _ rest e h
  · rintro _ _ later tag e rfl h rfl
    exact h rfl

theorem fails_take (n : Nat) : Fails (take n) IsShort := by
  intro c e d h
  unfold take at h
  split_ifs at h with hn
  cases h
  exact ⟨0, _, Nat.zero_le _, Nat.sub_pos_of_lt hn, rfl⟩

theorem fails_skip (n : Nat) : Fails (skip n) IsShort := by
  intro c e d h
  unfold skip at h
  split_ifs at h with hn
  cases h
  exact ⟨0, _, Nat.zero_le _, Nat.sub_pos_of_lt hn, rfl⟩

theorem fails_count (k : Count) : Fails (count k) IsShort := by
  cases k with
  | inTag n => exact (fails_pure n).mono fun _ _ _ => False.elim
  | wide width =>
    exact (fails_take width).bind_short (reads_take width) (fun _ => fails_pure _)
      (fun _ _ _ => id) fun _ _ _ _ _ _ => False.elim

theorem fails_count_skip (k : Count) (extra : Nat) :
    Fails (do skip ((← count k) + extra); return 0) IsShort := by
  refine (fails_count k).bind_short (reads_count k) (fun n => ?_) (fun _ _ _ => id)
    fun _ _ _ _ _ _ => IsShort.behind
  exact (fails_skip (n + extra)).bind_short (reads_skip _) (fun _ => fails_pure 0) (fun _ _ _ => id)
    fun _ _ _ _ _ _ => False.elim

variable (limits : Limits)

theorem fails_checkDepth (start level : Nat) : Fails (checkDepth limits start level) fun _ _ e =>
    limits.maxDepth ≤ level ∧ e = .depthLimitExceeded start limits.maxDepth := by
  unfold checkDepth
  split_ifs with h
  · exact (fails_throw _).mono fun _ _ _ he => ⟨h, he⟩
  · exact (fails_pure ()).mono fun _ _ _ => False.elim

theorem fails_checkRoom (start length items : Nat) :
    Fails (checkRoom limits start length items) fun offset rest e =>
      limits.maxEntries < length ∧ e = .containerTooLarge start length limits.maxEntries ∨
        IsShort offset rest e := by
  intro c e d h
  unfold checkRoom at h
  split_ifs at h with hlength hitems
  · cases h
    exact .inl ⟨hlength, rfl⟩
  · cases h
    exact .inr ⟨0, _, Nat.zero_le _, Nat.sub_pos_of_lt hitems, rfl⟩

/-- Whether a container may be opened is checked first for the open ones, then for its entries and
last for the bytes that are left. -/
theorem fails_checks (start level length items : Nat) (a : α) :
    Fails (do checkDepth limits start level; checkRoom limits start length items; return a)
      fun offset rest e =>
        limits.maxDepth ≤ level ∧ e = .depthLimitExceeded start limits.maxDepth ∨
        level < limits.maxDepth ∧ limits.maxEntries < length ∧
          e = .containerTooLarge start length limits.maxEntries ∨
        IsShort offset rest e := by
  refine ((fails_checkDepth limits start level).bind (reads_checkDepth limits start level) fun _ =>
    (fails_checkRoom limits start length items).bind (reads_checkRoom limits start length items)
      fun _ => fails_pure a).mono fun offset rest e h => ?_
  rcases h with h | ⟨_, later, _, rfl, ⟨rfl, hlevel⟩, (⟨hlength, rfl⟩ | h) | ⟨_, _, _, _, _, h⟩⟩
  · exact .inl h
  · exact .inr (.inl ⟨hlevel, hlength, rfl⟩)
  · exact .inr (.inr h)
  · exact h.elim

end Reader

end AtomicGroups.Wire
