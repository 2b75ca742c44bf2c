import Mathlib
import AtomicGroups.Wire.Entries
import AtomicGroups.Wire.Grammar

/-!
# What a reading step accepts

`Reads step G` describes the successes of a reading step without running it: the step gives `a`
exactly when it passes bytes `b` in front of bytes `rest` for which `G b rest a` holds.  The bytes
in front matter because a container may not announce more items than there are bytes left.

The description of a step is put together from those of its parts (`Reads.bind`), and what a step
accepts in front of given bytes is determined by them (`Reads.unique`).
-/

namespace AtomicGroups.Wire.Reader

variable {α β : Type}

theorem bind_of_ok {p : Reader α} {f : α → Reader β} {c c' : Cursor} {a : α} (h : p c = .ok a c') :
    (p >>= f) c = f a c' := by
  change EStateM.bind p f c = _
  unfold EStateM.bind
  rw [h]

theorem bind_of_error {p : Reader α} {f : α → Reader β} {c c' : Cursor} {e : DecodeError}
    (h : p c = .error e c') : (p >>= f) c = .error e c' := by
  change EStateM.bind p f c = _
  unfold EStateM.bind
  rw [h]

theorem bind_eq_ok {p : Reader α} {f : α → Reader β} {c d : Cursor} {b : β} :
    (p >>= f) c = .ok b d ↔ ∃ a c', p c = .ok a c' ∧ f a c' = .ok b d := by
  cases h : p c with
  | ok a c' =>
    rw [bind_of_ok h]
    constructor
    · intro hf
      exact ⟨a, c', rfl, hf⟩
    · rintro ⟨_, _, ha, hf⟩
      cases ha
      exact hf
  | error e c' =>
    rw [bind_of_error h]
    simp

/-- At the cursor `c`, a step succeeds with `a` exactly when it passes bytes `b` with `G b rest a`,
where `rest` is what it leaves. -/
def ReadsAt (step : Reader α) (c : Cursor) (G : Bytes → Bytes → α → Prop) : Prop :=
  ∀ a d, step c = .ok a d ↔ ∃ b, c.rest = b ++ d.rest ∧ d = c.advance b.length ∧ G b d.rest a

/-- The description of a step wherever it starts. -/
def Reads (step : Reader α) (G : Bytes → Bytes → α → Prop) : Prop := ∀ c, ReadsAt step c G

section

variable {step : Reader α} {c : Cursor} {G G' : Bytes → Bytes → α → Prop}

theorem rest_advance_of_append {b rest : Bytes} (h : c.rest = b ++ rest) :
    (c.advance b.length).rest = rest := by
  change c.rest.drop b.length = rest
  rw [h, List.drop_left]

/-- The success of a step on the bytes in front of it. -/
theorem ReadsAt.run (h : ReadsAt step c G) {b rest : Bytes} {a : α} (hc : c.rest = b ++ rest)
    (hG : G b rest a) : step c = .ok a (c.advance b.length) := by
  have hrest := rest_advance_of_append hc
  exact (h a _).2 ⟨b, by rw [hrest, hc], rfl, by rwa [hrest]⟩

theorem ReadsAt.leads (h : ReadsAt step c G) {a : α} {d : Cursor} (hstep : step c = .ok a d) :
    c.Leads d := by
  obtain ⟨b, hrest, rfl, -⟩ := (h a d).1 hstep
  have hlength := congrArg List.length hrest
  rw [← c.remaining_eq, List.length_append] at hlength
  exact ⟨b.length, by omega, rfl⟩

theorem ReadsAt.congr (h : ReadsAt step c G) (hG : ∀ b rest a, G b rest a ↔ G' b rest a) :
    ReadsAt step c G' := by
  intro a d
  rw [h a d]
  simp only [hG]

/-- A description is also that of a step with the same successes. -/
theorem Reads.congr (h : Reads step G) (hG : ∀ b rest a, G b rest a ↔ G' b rest a) :
    Reads step G' :=
  fun c => (h c).congr hG

/-- What a step passes and what it gives are determined by the bytes in front of it. -/
theorem Reads.unique (h : Reads step G) {b b' rest rest' : Bytes} {a a' : α} (h₁ : G b rest a)
    (h₂ : G b' rest' a') (heq : b ++ rest = b' ++ rest') : b = b' ∧ rest = rest' ∧ a = a' := by
  have e₁ := (h (Cursor.start (b ++ rest))).run rfl h₁
  have e₂ := (h (Cursor.start (b ++ rest))).run heq h₂
  rw [e₁] at e₂
  injection e₂ with ha hc
  have hlen : b.length = b'.length := by
    have := congrArg Cursor.offset hc
    simpa [Cursor.advance, Cursor.start] using this
  exact ⟨List.append_inj_left heq hlen, List.append_inj_right heq hlen, ha⟩

theorem Reads.parse_eq_ok (h : Reads step G) {bs : Bytes} {a : α} :
    step.parse bs = .ok a ↔ ∃ b rest, bs = b ++ rest ∧ G b rest a := by
  have hparse : step.parse bs = .ok a ↔ ∃ d, step (Cursor.start bs) = .ok a d := by
    unfold Reader.parse
    cases step (Cursor.start bs) <;> simp
  rw [hparse]
  constructor
  · rintro ⟨d, hd⟩
    obtain ⟨b, hb, -, hG⟩ := (h _ _ _).1 hd
    exact ⟨b, d.rest, hb, hG⟩
  · rintro ⟨b, rest, hb, hG⟩
    exact ⟨_, (h _).run hb hG⟩

end

/-! ## One step after another -/

theorem reads_pure (a : α) : Reads (pure a) fun b _ x => b = [] ∧ x = a := by
  intro c x d
  change EStateM.Result.ok a c = _ ↔ _
  constructor
  · intro h
    cases h
    exact ⟨[], rfl, c.advance_zero.symm, rfl, rfl⟩
  · rintro ⟨b, -, rfl, rfl, rfl⟩
    rw [List.length_nil, Cursor.advance_zero]

theorem reads_throw (e : DecodeError) : Reads (throw e : Reader α) fun _ _ _ => False := by
  intro c a d
  change EStateM.Result.error e c = _ ↔ _
  simp

section

variable {p : Reader α} {f : α → Reader β} {G : Bytes → Bytes → α → Prop}
  {H : α → Bytes → Bytes → β → Prop}

/-- What follows a step need only be described at the cursors that the step leads to. -/
theorem ReadsAt.bind {c : Cursor} (hp : ReadsAt p c G)
    (hf : ∀ a d, p c = .ok a d → ReadsAt (f a) d (H a)) :
    ReadsAt (p >>= f) c fun b rest y =>
      ∃ b₁ b₂ x, b = b₁ ++ b₂ ∧ G b₁ (b₂ ++ rest) x ∧ H x b₂ rest y := by
  intro y d
  rw [bind_eq_ok]
  constructor
  · rintro ⟨x, c', h₁, h₂⟩
    obtain ⟨b₁, hb₁, hc', hG⟩ := (hp x c').1 h₁
    obtain ⟨b₂, hb₂, hd, hH⟩ := (hf x c' h₁ y d).1 h₂
    rw [hb₂] at hb₁ hG
    refine ⟨b₁ ++ b₂, by rw [hb₁, List.append_assoc], ?_, b₁, b₂, x, rfl, hG, hH⟩
    rw [hd, hc', Cursor.advance_advance, List.length_append]
  · rintro ⟨b, hc, hd, b₁, b₂, x, rfl, hG, hH⟩
    rw [List.append_assoc] at hc
    have h₁ := hp.run hc hG
    refine ⟨x, _, h₁, ?_⟩
    rw [(hf x _ h₁).run (rest_advance_of_append hc) hH, Cursor.advance_advance, hd,
      List.length_append]

theorem Reads.bind (hp : Reads p G) (hf : ∀ a, Reads (f a) (H a)) :
    Reads (p >>= f) fun b rest y =>
      ∃ b₁ b₂ x, b = b₁ ++ b₂ ∧ G b₁ (b₂ ++ rest) x ∧ H x b₂ rest y :=
  fun c => (hp c).bind fun a d _ => hf a d

end

/-- The offset that errors name has no part in what is accepted. -/
theorem Reads.afterOffset {f : Nat → Reader α} {G : Bytes → Bytes → α → Prop}
    (hf : ∀ start, Reads (f start) G) : Reads (offset >>= f) G :=
  fun c a d => hf c.offset c a d

/-- Nothing is accepted by what comes after a failure. -/
theorem reads_throw_bind (e : DecodeError) (f : α → Reader β) :
    Reads (throw e >>= f) fun _ _ _ => False := by
  intro c b d
  have h : (throw e >>= f) c = .error e c := bind_of_error rfl
  rw [h]
  simp

/-! ## Steps -/

theorem reads_byte : Reads byte fun b _ t => b = [t] := by
  intro c t d
  unfold byte
  cases hc : c.rest with
  | nil =>
    constructor
    · intro h
      cases h
    · rintro ⟨b, hb, -, rfl⟩
      cases hb
  | cons u r =>
    constructor
    · intro h
      cases h
      refine ⟨[t], ?_, rfl, rfl⟩
      change t :: r = [t] ++ c.rest.drop 1
      rw [hc]
      rfl
    · rintro ⟨b, hb, rfl, rfl⟩
      cases hb
      rfl

theorem reads_take (n : Nat) : Reads (take n) fun b _ x => b.length = n ∧ x = b := by
  intro c x d
  have hr := c.remaining_eq
  unfold take
  split_ifs with h
  · constructor
    · intro he
      cases he
    · rintro ⟨b, hb, -, hlen, -⟩
      have := congrArg List.length hb
      rw [List.length_append] at this
      omega
  · constructor
    · intro he
      cases he
      have hlen : (c.rest.take n).length = n := by
        rw [List.length_take]
        omega
      exact ⟨_, (List.take_append_drop n c.rest).symm, by rw [hlen], hlen, rfl⟩
    · rintro ⟨b, hb, rfl, rfl, rfl⟩
      rw [hb, List.take_left]

theorem reads_skip (n : Nat) : Reads (skip n) fun b _ _ => b.length = n := by
  intro c x d
  have hskip : skip n c = .ok x d ↔ take n c = .ok (c.rest.take n) d := by
    unfold skip take
    split_ifs <;> simp
  rw [hskip, reads_take n c]
  constructor
  · rintro ⟨b, hb, hd, hlen, -⟩
    exact ⟨b, hb, hd, hlen⟩
  · rintro ⟨b, hb, hd, hlen⟩
    exact ⟨b, hb, hd, hlen, by rw [hb, ← hlen, List.take_left]⟩

theorem reads_number (width : Nat) :
    Reads (number width) fun b _ n => b.length = width ∧ n = b.toNat := by
  refine ((reads_take width).bind fun b => reads_pure b.toNat).congr fun b rest n => ?_
  constructor
  · rintro ⟨b₁, b₂, x, rfl, ⟨hlen, rfl⟩, rfl, rfl⟩
    rw [List.append_nil]
    exact ⟨hlen, rfl⟩
  · rintro ⟨hlen, rfl⟩
    exact ⟨b, [], b, (List.append_nil b).symm, ⟨hlen, rfl⟩, rfl, rfl⟩

theorem reads_count (k : Count) : Reads (count k) fun b _ n => k.Spells b n := by
  cases k with
  | inTag n => exact reads_pure n
  | wide width => exact reads_number width

theorem reads_checkDepth (limits : Limits) (start level : Nat) :
    Reads (checkDepth limits start level) fun b _ _ => b = [] ∧ level < limits.maxDepth := by
  unfold checkDepth
  split_ifs with h
  · exact (reads_throw _).congr fun b rest _ => by simp [Nat.not_lt.2 h]
  · exact (reads_pure ()).congr fun b rest _ => by simp [Nat.lt_of_not_le h]

theorem reads_checkRoom (limits : Limits) (start length items : Nat) :
    Reads (checkRoom limits start length items) fun b rest _ =>
      b = [] ∧ length ≤ limits.maxEntries ∧ items ≤ rest.length := by
  intro c x d
  have hr := c.remaining_eq
  have hcheck : checkRoom limits start length items c = .ok x d ↔
      (length ≤ limits.maxEntries ∧ items ≤ c.remaining) ∧ d = c := by
    unfold checkRoom
    split_ifs with h₁ h₂
    · simp [Nat.not_le.2 h₁]
    · simp [Nat.not_le.2 h₂]
    · simp [Nat.le_of_not_lt h₁, Nat.le_of_not_lt h₂, eq_comm]
  rw [hcheck]
  constructor
  · rintro ⟨⟨hlen, hitems⟩, rfl⟩
    exact ⟨[], rfl, d.advance_zero.symm, rfl, hlen, hr ▸ hitems⟩
  · rintro ⟨b, -, rfl, rfl, hlen, hitems⟩
    rw [List.length_nil, Cursor.advance_zero] at hitems ⊢
    exact ⟨⟨hlen, hr ▸ hitems⟩, rfl⟩

theorem reads_finish : Reads finish fun b rest _ => b = [] ∧ rest = [] := by
  intro c x d
  have hr := c.remaining_eq
  have hfinish : finish c = .ok x d ↔ c.rest = [] ∧ d = c := by
    unfold finish
    rw [← List.length_eq_zero_iff, ← hr]
    split_ifs with h
    · simp [h, eq_comm]
    · simp [h]
  rw [hfinish]
  constructor
  · rintro ⟨hrest, rfl⟩
    exact ⟨[], rfl, d.advance_zero.symm, rfl, hrest⟩
  · rintro ⟨b, -, rfl, rfl, hrest⟩
    rw [List.length_nil, Cursor.advance_zero] at hrest ⊢
    exact ⟨hrest, rfl⟩

theorem Reads.spanned {p : Reader Unit} {G : Bytes → Bytes → Unit → Prop} (hp : Reads p G) :
    Reads (Reader.spanned p) fun b rest x => x = b ∧ G b rest () := by
  intro c x d
  have hspan : Reader.spanned p c = .ok x d ↔
      p c = .ok () d ∧ x = c.rest.take (d.offset - c.offset) := by
    unfold Reader.spanned
    cases p c with
    | ok u c' =>
      constructor
      · intro h
        cases h
        exact ⟨rfl, rfl⟩
      · rintro ⟨h, rfl⟩
        cases h
        rfl
    | error e c' => simp
  rw [hspan, hp c () d]
  have hoffset : ∀ n, (c.advance n).offset - c.offset = n := fun n => Nat.add_sub_cancel_left ..
  constructor
  · rintro ⟨⟨b, hb, hd, hG⟩, rfl⟩
    refine ⟨b, hb, hd, ?_, hG⟩
    rw [hd, hoffset, hb, List.take_left]
  · rintro ⟨b, hb, hd, rfl, hG⟩
    refine ⟨⟨x, hb, hd, hG⟩, ?_⟩
    rw [hd, hoffset, hb, List.take_left]

end AtomicGroups.Wire.Reader
