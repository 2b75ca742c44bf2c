import AtomicGroups.Wire.Error

/-!
# Reading bytes in order

A `Cursor` is a place in a byte string: how many bytes were passed and which are left.  A `Reader`
is a reading step; when it fails, the cursor stays where the failure was found, so that a caller may
go on from there.

Every step of this library only ever moves the cursor forward over bytes that are there
(`Reader.Forward`), and the property is kept by running one step after another
(`Reader.Forward.bind`).
-/

namespace AtomicGroups.Wire

/-- A place in a byte string. -/
structure Cursor where
  /-- The number of bytes passed. -/
  offset : Nat
  /-- The bytes left. -/
  rest : Bytes
  /-- The number of bytes left, kept so that it need not be counted. -/
  remaining : Nat
  remaining_eq : remaining = rest.length

namespace Cursor

def start (bs : Bytes) : Cursor := ⟨0, bs, bs.length, rfl⟩

def advance (c : Cursor) (n : Nat) : Cursor :=
  ⟨c.offset + n, c.rest.drop n, c.remaining - n, by rw [List.length_drop, c.remaining_eq]⟩

@[ext] theorem ext {c d : Cursor} (ho : c.offset = d.offset) (hr : c.rest = d.rest) : c = d := by
  obtain ⟨_, _, _, rfl⟩ := c
  obtain ⟨_, _, _, rfl⟩ := d
  cases ho; cases hr; rfl

@[simp] theorem advance_zero (c : Cursor) : c.advance 0 = c := Cursor.ext rfl rfl

@[simp] theorem advance_advance (c : Cursor) (m n : Nat) :
    (c.advance m).advance n = c.advance (m + n) :=
  Cursor.ext (Nat.add_assoc ..) List.drop_drop

/-- `c.Leads d` says that `d` lies ahead of `c`, over bytes that are there. -/
def Leads (c d : Cursor) : Prop := ∃ n, n ≤ c.remaining ∧ d = c.advance n

theorem Leads.refl (c : Cursor) : c.Leads c := ⟨0, Nat.zero_le _, c.advance_zero.symm⟩

theorem Leads.trans {c d e : Cursor} (h₁ : c.Leads d) (h₂ : d.Leads e) : c.Leads e := by
  obtain ⟨m, hm, rfl⟩ := h₁
  obtain ⟨n, hn, rfl⟩ := h₂
  refine ⟨m + n, ?_, c.advance_advance m n⟩
  simp only [advance] at hn
  omega

theorem Leads.remaining_le {c d : Cursor} (h : c.Leads d) : d.remaining ≤ c.remaining := by
  obtain ⟨n, _, rfl⟩ := h
  exact Nat.sub_le ..

theorem Leads.offset_le {c d : Cursor} (h : c.Leads d) : c.offset ≤ d.offset := by
  obtain ⟨n, _, rfl⟩ := h
  exact Nat.le_add_right ..

/-- The bytes passed and those left add up to the same number all along. -/
theorem Leads.offset_add_remaining {c d : Cursor} (h : c.Leads d) :
    d.offset + d.remaining = c.offset + c.remaining := by
  obtain ⟨n, hn, rfl⟩ := h
  simp only [advance]
  omega

end Cursor

abbrev Reader := EStateM DecodeError Cursor

/-- What a reading step comes to: a result or an error, and the cursor it leaves. -/
abbrev Outcome := EStateM.Result DecodeError Cursor

def Outcome.cursor {α : Type} : Outcome α → Cursor
  | .ok _ c => c
  | .error _ c => c

namespace Reader

/-! ## Steps -/

def offset : Reader Nat := fun c => .ok c.offset c

def byte : Reader UInt8 := fun c =>
  match c.rest with
  | [] => .error (.endOfInput c.offset 1) c
  | b :: _ => .ok b (c.advance 1)

/-- The next `n` bytes; none is passed if there are fewer. -/
def take (n : Nat) : Reader Bytes := fun c =>
  if c.remaining < n then .error (.endOfInput c.offset (n - c.remaining)) c
  else .ok (c.rest.take n) (c.advance n)

/-- Passes the next `n` bytes, or none if there are fewer. -/
def skip (n : Nat) : Reader Unit := fun c =>
  if c.remaining < n then .error (.endOfInput c.offset (n - c.remaining)) c
  else .ok () (c.advance n)

/-- A number of `width` bytes, most significant first. -/
def number (width : Nat) : Reader Nat := return (← take width).toNat

/-- Fails if at least one byte is left. -/
def finish : Reader Unit := fun c =>
  if c.remaining = 0 then .ok () c else .error (.trailingBytes c.offset c.remaining) c

/-- The bytes that a step passes. -/
def spanned (step : Reader Unit) : Reader Bytes := fun c =>
  match step c with
  | .ok () c' => .ok (c.rest.take (c'.offset - c.offset)) c'
  | .error e c' => .error e c'

/-- Runs a step from the start of a byte string and drops the cursor. -/
def parse {α : Type} (step : Reader α) (bs : Bytes) : Except DecodeError α :=
  match step (Cursor.start bs) with
  | .ok a _ => .ok a
  | .error e _ => .error e

/-! ## Moving forward -/

/-- A step that leaves the cursor where it was or further on. -/
def Forward {α : Type} (step : Reader α) : Prop :=
  ∀ c : Cursor, c.Leads (Outcome.cursor (step c))

/-- A step that passes at least one byte when it succeeds. -/
def Consuming {α : Type} (step : Reader α) : Prop :=
  ∀ (c : Cursor) (a : α) (c' : Cursor), step c = .ok a c' → c'.remaining < c.remaining

variable {α β : Type}

theorem Forward.pure (a : α) : Forward (pure a : Reader α) := fun c => .refl c

theorem Forward.throw (e : DecodeError) : Forward (throw e : Reader α) := fun c => .refl c

theorem Forward.bind {p : Reader α} {f : α → Reader β} (hp : Forward p) (hf : ∀ a, Forward (f a)) :
    Forward (p >>= f) := by
  intro c
  have h := hp c
  change c.Leads (Outcome.cursor (EStateM.bind p f c))
  unfold EStateM.bind
  cases hc : p c with
  | ok a c' =>
    rw [hc] at h
    exact h.trans (hf a c')
  | error e c' =>
    rw [hc] at h
    exact h

/-- A step that consumes goes on consuming if what follows only moves forward. -/
theorem Consuming.bind {p : Reader α} {f : α → Reader β} (hp : Consuming p)
    (hf : ∀ a, Forward (f a)) : Consuming (p >>= f) := by
  intro c b c'' h
  change EStateM.bind p f c = _ at h
  unfold EStateM.bind at h
  cases hc : p c with
  | ok a c' =>
    rw [hc] at h
    have hle := (hf a c').remaining_le
    rw [show f a c' = .ok b c'' from h] at hle
    exact Nat.lt_of_le_of_lt hle (hp c a c' hc)
  | error e c' =>
    rw [hc] at h
    cases h

/-- A step that consumes may be preceded by one that only moves forward. -/
theorem Consuming.after {p : Reader α} {f : α → Reader β} (hp : Forward p)
    (hf : ∀ a, Consuming (f a)) : Consuming (p >>= f) := by
  intro c b c'' h
  change EStateM.bind p f c = _ at h
  unfold EStateM.bind at h
  have hl := hp c
  cases hc : p c with
  | ok a c' =>
    rw [hc] at h hl
    exact Nat.lt_of_lt_of_le (hf a c' b c'' h) (Cursor.Leads.remaining_le hl)
  | error e c' =>
    rw [hc] at h
    cases h

theorem forward_offset : Forward offset := fun c => .refl c

theorem forward_byte : Forward byte := by
  intro c
  have hr := c.remaining_eq
  unfold byte
  cases hc : c.rest with
  | nil => exact .refl c
  | cons b r => exact ⟨1, by simp [hr, hc], rfl⟩

theorem consuming_byte : Consuming byte := by
  intro c b c' h
  have hr := c.remaining_eq
  unfold byte at h
  cases hc : c.rest with
  | nil => simp [hc] at h
  | cons b r =>
    simp only [hc, EStateM.Result.ok.injEq] at h
    rw [← h.2]
    simp [Cursor.advance, hr, hc]

theorem forward_take (n : Nat) : Forward (take n) := by
  intro c
  unfold take
  split
  · exact .refl c
  · next h => exact ⟨n, Nat.le_of_not_lt h, rfl⟩

theorem forward_skip (n : Nat) : Forward (skip n) := by
  intro c
  unfold skip
  split
  · exact .refl c
  · next h => exact ⟨n, Nat.le_of_not_lt h, rfl⟩

theorem forward_number (width : Nat) : Forward (number width) :=
  (forward_take width).bind fun _ => .pure _

theorem Forward.spanned {p : Reader Unit} (hp : Forward p) : Forward (spanned p) := by
  intro c
  have h := hp c
  unfold Reader.spanned
  cases hc : p c <;> rw [hc] at h <;> exact h

end Reader

end AtomicGroups.Wire
