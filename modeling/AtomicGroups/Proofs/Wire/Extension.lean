import Mathlib
import AtomicGroups.Proofs.Wire.Descent
import AtomicGroups.Wire.Entries

/-!
# Reading with more bytes behind the input

What becomes of a reading step when bytes are put behind its input (`Outcome.Extended`).  What was
read stays as it is, and so does an error in the bytes that are there.  Where the input ended, the
bytes that came are needed no more; if all that were needed came, the input does not end there again
nor in front of it.

The last part is kept by running one step after another only if it is said how far the steps come:
`Extends P Q step` takes a step from cursors with `P` to cursors with `Q`, where either property is
that the byte at an offset was passed (`Cursor.Passed`) or that it is passed or the next one
(`Cursor.Reached`).  A container that has room only with the bytes that came leaves its first item
reached and no more; every item and every entry begins with a byte, and so goes on from there.
-/

namespace AtomicGroups

/-- Whether an error stays one whatever bytes follow. -/
def DecodeError.IsFinal : DecodeError → Prop
  | .endOfInput _ _ | .trailingBytes _ _ => False
  | _ => True

namespace Wire

/-! ## More input -/

namespace Cursor

/-- The same place in the input with `ext` behind it. -/
def extend (c : Cursor) (ext : Bytes) : Cursor where
  offset := c.offset
  rest := c.rest ++ ext
  remaining := c.remaining + ext.length
  remaining_eq := by rw [List.length_append, c.remaining_eq]

/-- The byte at an offset was passed. -/
def Passed (offset : Nat) (c : Cursor) : Prop := offset < c.offset

/-- The byte at an offset was passed, or it is the next one. -/
def Reached (offset : Nat) (c : Cursor) : Prop :=
  offset ≤ c.offset ∧ offset < c.offset + c.remaining

variable {c : Cursor} {n offset : Nat}

@[simp] theorem offset_extend (c : Cursor) (ext : Bytes) : (c.extend ext).offset = c.offset := rfl

@[simp] theorem rest_extend (c : Cursor) (ext : Bytes) : (c.extend ext).rest = c.rest ++ ext := rfl

@[simp] theorem remaining_extend (c : Cursor) (ext : Bytes) :
    (c.extend ext).remaining = c.remaining + ext.length := rfl

theorem start_append (bs ext : Bytes) : start (bs ++ ext) = (start bs).extend ext :=
  Cursor.ext rfl rfl

theorem advance_extend (h : n ≤ c.remaining) (ext : Bytes) :
    (c.extend ext).advance n = (c.advance n).extend ext :=
  Cursor.ext rfl (List.drop_append_of_le_length (c.remaining_eq ▸ h))

theorem take_rest_extend (h : n ≤ c.remaining) (ext : Bytes) :
    (c.extend ext).rest.take n = c.rest.take n :=
  List.take_append_of_le_length (c.remaining_eq ▸ h)

theorem Passed.reached (h : c.Passed offset) : c.Reached offset :=
  ⟨Nat.le_of_lt h, Nat.lt_add_right _ h⟩

end Cursor

namespace Outcome

variable {α : Type} {P Q : Nat → Cursor → Prop} {offset : Nat} {o : Outcome α} {ext : Bytes}

/-- A step that succeeded left a cursor with `Q`, and one that ran out of input did so behind the
offset. -/
def Behind (Q : Nat → Cursor → Prop) (offset : Nat) : Outcome α → Prop
  | .ok _ d => Q offset d
  | .error e _ => ∀ offset' needed, e = .endOfInput offset' needed → offset < offset'

/-- The outcome of a step on some input, and with `ext` behind it. -/
inductive Extended (ext : Bytes) (Q : Nat → Cursor → Prop) : Outcome α → Outcome α → Prop
  | ok (a : α) (d : Cursor) : Extended ext Q (.ok a d) (.ok a (d.extend ext))
  | final {e : DecodeError} (d : Cursor) : e.IsFinal →
    Extended ext Q (.error e d) (.error e (d.extend ext))
  | short {offset needed : Nat} (d : Cursor) : ext.length < needed →
    Extended ext Q (.error (.endOfInput offset needed) d)
      (.error (.endOfInput offset (needed - ext.length)) (d.extend ext))
  | enough {offset needed : Nat} (d : Cursor) {o : Outcome α} : needed ≤ ext.length →
    Behind Q offset o → Extended ext Q (.error (.endOfInput offset needed) d) o

theorem Behind.mono (hPQ : ∀ d, P offset d → Q offset d) (h : Behind P offset o) :
    Behind Q offset o := by
  cases o with
  | ok a d => exact hPQ d h
  | error e d => exact h

theorem Extended.mono {o' : Outcome α} (hPQ : ∀ offset d, P offset d → Q offset d)
    (h : Extended ext P o o') : Extended ext Q o o' := by
  cases h with
  | ok a d => exact .ok a d
  | final d he => exact .final d he
  | short d hn => exact .short d hn
  | enough d hn ho => exact .enough d hn (ho.mono (hPQ _))

theorem Extended.eq_of_ok {a : α} {d : Cursor} (h : Extended ext Q (.ok a d) o) :
    o = .ok a (d.extend ext) := by
  cases h
  rfl

/-- Bytes that are missing are missed at the cursor, until as many came. -/
theorem extended_of_lt {c : Cursor} {n : Nat} (h : c.remaining < n)
    (hbehind : n ≤ c.remaining + ext.length → Behind Q c.offset o) :
    Extended ext Q (.error (.endOfInput c.offset (n - c.remaining)) c)
      (if c.remaining + ext.length < n then
        .error (.endOfInput c.offset (n - (c.remaining + ext.length))) (c.extend ext)
      else o) := by
  by_cases hlt : c.remaining + ext.length < n
  · rw [if_pos hlt, Nat.sub_add_eq]
    exact .short c (by omega)
  · rw [if_neg hlt]
    exact .enough c (by omega) (hbehind (Nat.le_of_not_lt hlt))

theorem behind_of_isFinal {e : DecodeError} {d : Cursor} (he : e.IsFinal) :
    Behind Q offset (.error e d : Outcome α) := by
  rintro offset' needed rfl
  exact he.elim

end Outcome

namespace Reader

open Outcome

variable {α β : Type} {P Q R : Nat → Cursor → Prop} {p : Reader α} {f : α → Reader β}

/-- From a cursor with `P` a step goes to one with `Q`, or runs out of input behind; and with more
bytes behind the input it goes on from where the input ended. -/
structure Extends (P Q : Nat → Cursor → Prop) (step : Reader α) : Prop where
  behind : ∀ c offset, P offset c → Behind Q offset (step c)
  extended : ∀ ext c, Extended ext Q (step c) (step (c.extend ext))

theorem Extends.reached (h : Extends P Cursor.Passed p) : Extends P Cursor.Reached p :=
  ⟨fun c offset hc => (h.behind c offset hc).mono fun _ => Cursor.Passed.reached,
    fun ext c => (h.extended ext c).mono fun _ _ => Cursor.Passed.reached⟩

/-! ### One step after another -/

theorem behind_bind {c : Cursor} {offset : Nat} (hp : Behind Q offset (p c))
    (hf : ∀ a d, Q offset d → Behind R offset (f a d)) : Behind R offset ((p >>= f) c) := by
  cases h : p c with
  | ok a d =>
    rw [bind_of_ok h]
    rw [h] at hp
    exact hf a d hp
  | error e d =>
    rw [bind_of_error h]
    rw [h] at hp
    exact hp

theorem Extends.bind (hp : Extends P Q p) (hf : ∀ a, Extends Q R (f a)) :
    Extends P R (p >>= f) := by
  have hnext : ∀ offset a d, Q offset d → Behind R offset (f a d) :=
    fun offset a d => (hf a).behind d offset
  refine ⟨fun c offset hc => behind_bind (hp.behind c offset hc) (hnext offset), fun ext c => ?_⟩
  have h := hp.extended ext c
  generalize ho : p c = o, ho' : p (c.extend ext) = o' at h
  cases h with
  | ok a d =>
    rw [bind_of_ok ho, bind_of_ok ho']
    exact (hf a).extended ext d
  | final d he =>
    rw [bind_of_error ho, bind_of_error ho']
    exact .final d he
  | short d hn =>
    rw [bind_of_error ho, bind_of_error ho']
    exact .short d hn
  | enough d hn hbehind =>
    rw [bind_of_error ho]
    exact .enough d hn (behind_bind (ho' ▸ hbehind) (hnext _))

theorem extends_pure (a : α) : Extends P P (pure a) :=
  ⟨fun _ _ hc => hc, fun _ c => .ok a c⟩

theorem extends_throw {e : DecodeError} (he : e.IsFinal) : Extends P Q (throw e : Reader α) :=
  ⟨fun _ _ _ => behind_of_isFinal he, fun _ c => .final c he⟩

theorem extends_offset_bind {f : Nat → Reader β} (hf : ∀ start, Extends P Q (f start)) :
    Extends P Q (offset >>= f) :=
  ⟨fun c => (hf c.offset).behind c, fun ext c => (hf c.offset).extended ext c⟩

theorem Extends.spanned {p : Reader Unit} (h : Extends P Q p) (hp : Forward p) :
    Extends P Q (spanned p) := by
  refine ⟨fun c offset hc => ?_, fun ext c => ?_⟩
  · have hbehind := h.behind c offset hc
    unfold Reader.spanned
    cases ho : p c <;> rw [ho] at hbehind <;> exact hbehind
  · have hleads := hp c
    have hext := h.extended ext c
    unfold Reader.spanned
    generalize p c = o, p (c.extend ext) = o' at hleads hext ⊢
    cases hext with
    | ok u d =>
      obtain ⟨n, hn, rfl : d = c.advance n⟩ := hleads
      have hlength : (c.advance n).offset - c.offset = n := Nat.add_sub_cancel_left ..
      dsimp only [Cursor.offset_extend]
      rw [hlength, Cursor.take_rest_extend hn]
      exact .ok _ _
    | final d he => exact .final d he
    | short d hn => exact .short d hn
    | @enough offset needed d o' hn hbehind =>
      refine .enough d hn ?_
      cases o' <;> exact hbehind

/-! ### Steps -/

/-- Where a byte is reached, reading one passes it. -/
theorem extends_byte : Extends Cursor.Reached Cursor.Passed byte := by
  refine ⟨fun c offset hc => ?_, fun ext c => ?_⟩
  · obtain ⟨hle, hlt⟩ := hc
    have hr := c.remaining_eq
    unfold byte
    cases h : c.rest with
    | nil =>
      rw [hr, h] at hlt
      rintro offset' needed ⟨⟩
      exact hlt
    | cons b rest => exact Nat.lt_succ_of_le hle
  · unfold byte
    rw [Cursor.rest_extend]
    cases h : c.rest with
    | nil =>
      cases ext with
      | nil => exact .short c Nat.zero_lt_one
      | cons b ext => exact .enough c (Nat.succ_pos _) (Nat.lt_succ_self _)
    | cons b rest =>
      have hpos : 1 ≤ c.remaining := by
        rw [c.remaining_eq, h]
        exact Nat.succ_pos _
      dsimp only [List.cons_append]
      rw [Cursor.advance_extend hpos]
      exact .ok _ _

theorem extends_take (n : Nat) : Extends Cursor.Passed Cursor.Passed (take n) := by
  refine ⟨fun c offset hc => ?_, fun ext c => ?_⟩
  · unfold take
    split_ifs with h
    · rintro offset' needed ⟨⟩
      exact hc
    · exact Nat.lt_add_right n hc
  · unfold take
    rw [Cursor.remaining_extend, Cursor.offset_extend]
    by_cases h : c.remaining < n
    · rw [if_pos h]
      exact extended_of_lt h fun _ => Nat.lt_add_of_pos_right (Nat.zero_lt_of_lt h)
    · rw [if_neg h, if_neg (by omega), Cursor.take_rest_extend (Nat.le_of_not_lt h),
        Cursor.advance_extend (Nat.le_of_not_lt h)]
      exact .ok _ _

theorem skip_eq (n : Nat) : skip n = do let _ ← take n; return () := by
  funext c
  by_cases h : c.remaining < n
  · have htake : take n c = .error (.endOfInput c.offset (n - c.remaining)) c := if_pos h
    rw [bind_of_error htake]
    exact if_pos h
  · have htake : take n c = .ok (c.rest.take n) (c.advance n) := if_neg h
    rw [bind_of_ok htake]
    exact if_neg h

theorem extends_skip (n : Nat) : Extends Cursor.Passed Cursor.Passed (skip n) := by
  rw [skip_eq]
  exact (extends_take n).bind fun _ => extends_pure _

theorem extends_count (k : Count) : Extends Cursor.Passed Cursor.Passed (count k) := by
  cases k with
  | inTag n => exact extends_pure n
  | wide width => exact (extends_take width).bind fun _ => extends_pure _

theorem extends_checkDepth (limits : Limits) (start level : Nat) :
    Extends P P (checkDepth limits start level) := by
  unfold checkDepth
  split_ifs
  · exact extends_throw trivial
  · exact extends_pure ()

/-- If more bytes make room for the items of a container, the first one is there. -/
theorem extends_checkRoom (limits : Limits) (start length items : Nat) :
    Extends Cursor.Passed Cursor.Reached (checkRoom limits start length items) := by
  refine ⟨fun c offset hc => ?_, fun ext c => ?_⟩
  · unfold checkRoom
    split_ifs
    · exact behind_of_isFinal trivial
    · rintro offset' needed ⟨⟩
      exact hc
    · exact hc.reached
  · unfold checkRoom
    rw [Cursor.remaining_extend, Cursor.offset_extend]
    by_cases hmax : limits.maxEntries < length
    · rw [if_pos hmax, if_pos hmax]
      exact .final c trivial
    rw [if_neg hmax, if_neg hmax]
    by_cases h : c.remaining < items
    · rw [if_pos h]
      refine extended_of_lt h fun hroom => ⟨le_rfl, Nat.lt_add_of_pos_right ?_⟩
      exact (Nat.zero_lt_of_lt h).trans_le hroom
    · rw [if_neg h, if_neg (by omega)]
      exact .ok () c

theorem extends_container (limits : Limits) (start level length width : Nat) :
    Extends Cursor.Passed Cursor.Reached (container limits start level length width) :=
  (extends_checkDepth limits start level).bind fun _ =>
    (extends_checkRoom limits start length _).bind fun _ => extends_pure _

/-! ### Headers, keys and values -/

theorem extends_header (limits : Limits) (level : Nat) :
    Extends Cursor.Reached Cursor.Reached (header limits level) := by
  refine extends_offset_bind fun start => extends_byte.bind fun tag => ?_
  cases Format.ofByte tag with
  | fixed payload => exact ((extends_skip payload).bind fun _ => extends_pure 0).reached
  | string k | binary k | extension k =>
    exact ((extends_count k).bind fun n => (extends_skip _).bind fun _ => extends_pure 0).reached
  | array k | map k => exact (extends_count k).bind fun n => extends_container _ _ _ _ _
  | reserved => exact extends_throw trivial

theorem extends_mapHeader (limits : Limits) :
    Extends Cursor.Reached Cursor.Reached (mapHeader limits) := by
  refine extends_offset_bind fun start => extends_byte.bind fun tag => ?_
  cases Format.ofByte tag with
  | map k =>
    exact (extends_count k).bind fun length => (extends_checkDepth _ _ _).bind fun _ =>
      (extends_checkRoom _ _ _ _).bind fun _ => extends_pure length
  | fixed | string | binary | extension | array | reserved => exact extends_throw trivial

theorem extends_key : Extends Cursor.Reached Cursor.Reached key := by
  refine (extends_offset_bind fun start => extends_byte.bind fun tag => ?_ :
    Extends Cursor.Reached Cursor.Passed key).reached
  cases Format.ofByte tag with
  | string k =>
    refine (extends_count k).bind fun n => (extends_take n).bind fun text => ?_
    cases text.toString? with
    | some s => exact extends_pure s
    | none => exact extends_throw trivial
  | fixed | map | binary | extension | array | reserved => exact extends_throw trivial

end Reader

namespace Walk

open Outcome Reader

variable (limits : Limits)

theorem extends_step (w : Walk) : Extends Cursor.Reached Cursor.Reached (w.step limits) :=
  (extends_header limits w.level).bind fun _ => extends_pure _

theorem behind_run (w : Walk) (c : Cursor) {offset : Nat} (hc : c.Reached offset) :
    Behind Cursor.Reached offset (w.run limits c) := by
  have hstep (w : Walk) {c : Cursor} (hc : c.Reached offset) :
      Behind Cursor.Reached offset (w.step limits c) := (extends_step limits w).behind c offset hc
  fun_induction run limits w c with
  | case1 w c c' h =>
    have hbehind := hstep w hc
    rwa [h] at hbehind
  | case2 w c w' c' h _ ih =>
    have hbehind := hstep w hc
    rw [h] at hbehind
    exact ih hbehind
  | case3 w c e c' h =>
    have hbehind := hstep w hc
    rwa [h] at hbehind

variable {limits}

/-- If the first step of a walk gets behind an offset, so does the walk. -/
theorem behind_run_of_step {w : Walk} {c : Cursor} {offset : Nat}
    (h : Behind Cursor.Reached offset (w.step limits c)) :
    Behind Cursor.Reached offset (w.run limits c) := by
  cases hstep : w.step limits c with
  | ok next d =>
    rw [hstep] at h
    cases next with
    | none =>
      rw [run_of_step_none hstep]
      exact h
    | some w' =>
      rw [run_of_step_some hstep]
      exact behind_run limits w' d h
  | error e d =>
    rw [hstep] at h
    rw [run_of_step_error hstep]
    exact h

variable (limits)

/-- Where the input ended in a walk, it goes on with the header that it was at. -/
theorem extended_run (w : Walk) (ext : Bytes) (c : Cursor) :
    Extended ext Cursor.Reached (w.run limits c) (w.run limits (c.extend ext)) := by
  have hstep (w : Walk) (c : Cursor) :
      Extended ext Cursor.Reached (w.step limits c) (w.step limits (c.extend ext)) :=
    (extends_step limits w).extended ext c
  fun_induction run limits w c with
  | case1 w c c' h =>
    have hext := hstep w c
    rw [h] at hext
    rw [run_of_step_none hext.eq_of_ok]
    exact .ok () c'
  | case2 w c w' c' h _ ih =>
    have hext := hstep w c
    rw [h] at hext
    rw [run_of_step_some hext.eq_of_ok]
    exact ih
  | case3 w c e c' h =>
    have hext := hstep w c
    generalize ho : w.step limits (c.extend ext) = o at hext
    rw [h] at hext
    cases hext with
    | final _ he =>
      rw [run_of_step_error ho]
      exact .final c' he
    | short _ hn =>
      rw [run_of_step_error ho]
      exact .short c' hn
    | enough _ hn hbehind => exact .enough c' hn (behind_run_of_step (ho ▸ hbehind))

theorem extends_run (w : Walk) : Extends Cursor.Reached Cursor.Reached (w.run limits) :=
  ⟨fun c _ hc => behind_run limits w c hc, fun ext c => extended_run limits w ext c⟩

end Walk

theorem Reader.extends_value (limits : Limits) (level : Nat) :
    Extends Cursor.Reached Cursor.Reached (value limits level) :=
  (Walk.extends_run limits _).spanned (Walk.forward_run limits _)

end Wire

end AtomicGroups
