import Mathlib
import AtomicGroups.Proofs.Wire.Extension
import AtomicGroups.Proofs.Wire.TypeByte
import AtomicGroups.Wire.Checked

/-!
# Steps with words and steps with numbers

`Refines buffer m p R` says that the step `m` with words comes to what the step `p` with numbers
comes to, at every place in the buffer: there is no fault, an error is the same, and results are
related by `R`.  The relation is kept by running one step after another (`Refines.bind`).  An
operation on words drops out where its result fits (`add_eq`, `sub_eq`, `mul_eq`).
-/

namespace AtomicGroups.Wire.Checked

variable {α α' β β' : Type}

/-! ## Operations -/

theorem check_eq {p : Prop} [Decidable p] {a : α} (h : p) : check p a = pure a := if_pos h

theorem exists_word {n : Nat} (h : n < 2 ^ 64) : ∃ w, word n = pure w ∧ w.toNat = n :=
  ⟨_, check_eq h, by rw [UInt64.toNat_ofNat', Nat.mod_eq_of_lt h]⟩

theorem exists_add {a b : UInt64} (h : a.toNat + b.toNat < 2 ^ 64) :
    ∃ w, add a b = pure w ∧ w.toNat = a.toNat + b.toNat :=
  ⟨_, check_eq h, by rw [UInt64.toNat_add, Nat.mod_eq_of_lt h]⟩

theorem exists_sub {a b : UInt64} (h : b.toNat ≤ a.toNat) :
    ∃ w, sub a b = pure w ∧ w.toNat = a.toNat - b.toNat :=
  ⟨_, check_eq h, UInt64.toNat_sub_of_le _ _ h⟩

theorem exists_mul {a b : UInt64} (h : a.toNat * b.toNat < 2 ^ 64) :
    ∃ w, mul a b = pure w ∧ w.toNat = a.toNat * b.toNat :=
  ⟨_, check_eq h, by rw [UInt64.toNat_mul, Nat.mod_eq_of_lt h]⟩

theorem exists_appendByte {n : UInt64} {b : UInt8} (h : n.toNat * 256 + b.toNat < 2 ^ 64) :
    ∃ w, appendByte n b = pure w ∧ w.toNat = n.toNat * 256 + b.toNat := by
  refine ⟨_, check_eq h, ?_⟩
  have hb : b.toNat < 2 ^ 8 := b.toNat_lt
  have hshift : n.toNat <<< 8 = n.toNat * 256 := Nat.shiftLeft_eq ..
  have hn : (n <<< 8).toNat = n.toNat <<< 8 := by
    rw [UInt64.toNat_shiftLeft]
    change n.toNat <<< 8 % 2 ^ 64 = n.toNat <<< 8
    exact Nat.mod_eq_of_lt (by omega)
  rw [UInt64.toNat_or, hn, UInt8.toNat_toUInt64, ← Nat.shiftLeft_add_eq_or_of_lt hb, hshift]

/-- Up to eight bytes make a number that fits a word, byte by byte. -/
theorem exists_foldlM_appendByte (bs : Bytes) {n : UInt64} {k : Nat} (hn : n.toNat < 256 ^ k)
    (hk : k + bs.length ≤ 8) : ∃ w, bs.foldlM appendByte n = pure w ∧
      w.toNat = bs.foldl (fun n b => n * 256 + b.toNat) n.toNat := by
  induction bs generalizing n k with
  | nil => exact ⟨n, rfl, rfl⟩
  | cons b bs ih =>
    rw [List.length_cons] at hk
    have hb := b.toNat_lt
    have hnext : n.toNat * 256 + b.toNat < 256 ^ (k + 1) := by
      rw [pow_succ]
      omega
    have hfits : 256 ^ (k + 1) ≤ 256 ^ 8 := Nat.pow_le_pow_right (by decide) (by omega)
    obtain ⟨m, hm, hmn⟩ := exists_appendByte (n := n) (b := b) (by omega)
    obtain ⟨w, hw, hwn⟩ := ih (hmn ▸ hnext) (by omega)
    refine ⟨w, ?_, ?_⟩
    · rw [List.foldlM_cons, hm, pure_bind, hw]
    · rw [hwn, hmn, List.foldl_cons]

/-! ## Refinement -/

/-- The cursor behind the first bytes of a buffer. -/
def cursorAt (buffer : Bytes) (pos : UInt64) : Cursor := (Cursor.start buffer).advance pos.toNat

theorem offset_cursorAt (buffer : Bytes) (pos : UInt64) :
    (cursorAt buffer pos).offset = pos.toNat :=
  Nat.zero_add _

theorem remaining_cursorAt (buffer : Bytes) (pos : UInt64) :
    (cursorAt buffer pos).remaining = buffer.length - pos.toNat :=
  rfl

/-- The cursor further on in the buffer. -/
theorem advance_cursorAt {buffer : Bytes} {pos stop : UInt64} {n : Nat}
    (h : stop.toNat = pos.toNat + n) : (cursorAt buffer pos).advance n = cursorAt buffer stop := by
  unfold cursorAt
  rw [Cursor.advance_advance, h]

/-- What a step with words comes to agrees with what a step with numbers comes to. -/
inductive Agrees (buffer : Bytes) (R : α' → α → Prop) : Result α' → Outcome α → Prop
  | ok {a' : α'} {a : α} {pos : UInt64} : R a' a → pos.toNat ≤ buffer.length →
    Agrees buffer R (.ok a' pos) (.ok a (cursorAt buffer pos))
  | refused {e : DecodeError} {pos : UInt64} : pos.toNat ≤ buffer.length →
    Agrees buffer R (.error (.refused e) pos) (.error e (cursorAt buffer pos))

theorem Agrees.ne_fault {buffer : Bytes} {R : α' → α → Prop} {o' : Result α'} {o : Outcome α}
    (h : Agrees buffer R o' o) (pos : UInt64) : o' ≠ .error .fault pos := by
  rintro rfl
  cases h

theorem Agrees.passed_le {buffer : Bytes} {R : α' → α → Prop} {o' : Result α'} {o : Outcome α}
    (h : Agrees buffer R o' o) : o'.passed.toNat ≤ buffer.length := by
  cases h with
  | ok _ hpos | refused hpos => exact hpos

/-- At every place in the buffer, two steps agree. -/
def Refines (buffer : Bytes) (m : Step α') (p : Reader α) (R : α' → α → Prop) : Prop :=
  ∀ pos : UInt64, pos.toNat ≤ buffer.length →
    Agrees buffer R (m pos) (p (cursorAt buffer pos))

theorem bind_of_ok {m : Step α} {f : α → Step β} {pos pos' : UInt64} {a : α}
    (h : m pos = .ok a pos') : (m >>= f) pos = f a pos' := by
  change EStateM.bind m f pos = _
  unfold EStateM.bind
  rw [h]

theorem bind_of_error {m : Step α} {f : α → Step β} {pos pos' : UInt64} {e : Stop}
    (h : m pos = .error e pos') : (m >>= f) pos = .error e pos' := by
  change EStateM.bind m f pos = _
  unfold EStateM.bind
  rw [h]

section

variable {buffer : Bytes} {m : Step α'} {p : Reader α} {f' : α' → Step β'} {f : α → Reader β}
  {R R' : α' → α → Prop} {S : β' → β → Prop}

theorem refines_pure {a' : α'} {a : α} (h : R a' a) : Refines buffer (pure a') (pure a) R :=
  fun _ hpos => .ok h hpos

theorem refines_refuse (e : DecodeError) :
    Refines buffer (refuse e : Step α') (throw e : Reader α) R :=
  fun _ hpos => .refused hpos

theorem Refines.mono (h : Refines buffer m p R) (hR : ∀ a' a, R a' a → R' a' a) :
    Refines buffer m p R' := by
  intro pos hpos
  have hagrees := h pos hpos
  generalize m pos = r' at hagrees ⊢
  generalize p (cursorAt buffer pos) = r at hagrees ⊢
  cases hagrees with
  | ok ha hpos' => exact .ok (hR _ _ ha) hpos'
  | refused hpos' => exact .refused hpos'

theorem Refines.bind (hp : Refines buffer m p R)
    (hf : ∀ a' a, R a' a → Refines buffer (f' a') (f a) S) :
    Refines buffer (m >>= f') (p >>= f) S := by
  intro pos hpos
  have hfirst := hp pos hpos
  generalize hm : m pos = r' at hfirst
  generalize hr : p (cursorAt buffer pos) = r at hfirst
  cases hfirst with
  | ok ha hpos' =>
    rw [bind_of_ok hm, Reader.bind_of_ok hr]
    exact hf _ _ ha _ hpos'
  | refused hpos' =>
    rw [bind_of_error hm, Reader.bind_of_error hr]
    exact .refused hpos'

/-- Both steps may note where they start. -/
theorem refines_get_bind {g : UInt64 → Step β'} {f : Nat → Reader β}
    (h : ∀ start : UInt64, Refines buffer (g start) (f start.toNat) S) :
    Refines buffer (get >>= g) (Reader.offset >>= f) S := by
  intro pos hpos
  have hnext := h pos pos hpos
  rw [← offset_cursorAt buffer pos] at hnext
  exact hnext

end

/-! ## Steps -/

/-- A byte is read like one byte that is taken. -/
theorem byte_eq_take (e : DecodeError) : Reader.byte = Reader.take 1 >>= fun bs =>
    match bs with
    | b :: _ => pure b
    | [] => throw e := by
  funext c
  have hr := c.remaining_eq
  unfold Reader.byte
  cases hc : c.rest with
  | nil =>
    have herror : Reader.take 1 c = .error (.endOfInput c.offset (1 - c.remaining)) c :=
      if_pos (by simp [hr, hc])
    rw [Reader.bind_of_error herror, hr, hc]
    rfl
  | cons b rest =>
    have hok : Reader.take 1 c = .ok (c.rest.take 1) (c.advance 1) :=
      if_neg (by simp [hr, hc])
    rw [Reader.bind_of_ok hok, hc]
    rfl

section

variable {buffer : Bytes} (hbuffer : buffer.length < 2 ^ 63)

include hbuffer

theorem exists_remaining {pos : UInt64} (hpos : pos.toNat ≤ buffer.length) :
    ∃ left, remaining buffer pos = .ok left pos ∧
      left.toNat = (cursorAt buffer pos).remaining := by
  obtain ⟨length, hlength, hn⟩ := exists_word (n := buffer.length) (by omega)
  obtain ⟨left, hleft, hsub⟩ := exists_sub (a := length) (b := pos) (by omega)
  refine ⟨left, ?_, by rw [hsub, hn, remaining_cursorAt]⟩
  unfold remaining
  rw [hlength, pure_bind]
  exact congrFun hleft pos

theorem refines_take (n : UInt64) : Refines buffer (take buffer n) (Reader.take n.toNat)
    fun bs' bs => bs' = bs ∧ bs.length = n.toNat := by
  intro pos hpos
  obtain ⟨left, hleft, hremaining⟩ := exists_remaining hbuffer hpos
  have hn := hremaining
  rw [remaining_cursorAt] at hn
  unfold take
  rw [bind_of_ok hleft]
  change Agrees buffer _ ((if left < n then _ else _ : Step Bytes) pos) _
  unfold Reader.take
  by_cases h : left < n
  · have hless := UInt64.lt_iff_toNat_lt.1 h
    obtain ⟨needed, hneeded, hsub⟩ := exists_sub (a := n) (b := left) hless.le
    rw [if_pos h, if_pos (hremaining ▸ hless), hneeded, pure_bind, hsub, hremaining,
      offset_cursorAt]
    exact .refused hpos
  · have hle : n.toNat ≤ left.toNat := Nat.not_lt.1 fun hless => h (UInt64.lt_iff_toNat_lt.2 hless)
    obtain ⟨stop, hstop, hadd⟩ := exists_add (a := pos) (b := n) (by omega)
    rw [if_neg h, if_neg (hremaining ▸ Nat.not_lt.2 hle), hstop, pure_bind, slice,
      check_eq (by omega), pure_bind, advance_cursorAt hadd]
    refine .ok ⟨?_, ?_⟩ (by omega)
    · rw [hadd, Nat.add_sub_cancel_left]
      rfl
    · rw [List.length_take, ← Cursor.remaining_eq, ← hremaining, min_eq_left hle]

theorem refines_skip (n : UInt64) :
    Refines buffer (skip buffer n) (Reader.skip n.toNat) fun _ _ => True := by
  rw [Reader.skip_eq]
  exact (refines_take hbuffer n).bind fun _ _ _ => refines_pure trivial

theorem refines_byte : Refines buffer (byte buffer) Reader.byte Eq := by
  rw [byte_eq_take (.endOfInput 0 0)]
  refine (refines_take hbuffer 1).bind fun bs' bs h => ?_
  obtain ⟨rfl, hlength⟩ := h
  cases bs' with
  | nil => cases hlength
  | cons b rest => exact refines_pure rfl

theorem refines_number {width : Nat} (hwidth : width ≤ 8) :
    Refines buffer (number buffer width) (Reader.number width)
      fun w n => w.toNat = n ∧ n < 256 ^ width := by
  obtain ⟨w, hw, hwn⟩ := exists_word (n := width) (by omega)
  unfold number Reader.number
  rw [hw, pure_bind, ← hwn]
  refine (refines_take hbuffer w).bind fun bs' bs h => ?_
  obtain ⟨rfl, hlength⟩ := h
  obtain ⟨n, hn, hnumber⟩ :=
    exists_foldlM_appendByte bs' (n := 0) (k := 0) (by decide) (by omega)
  rw [hn]
  exact refines_pure ⟨hnumber, hlength ▸ Bytes.toNat_lt bs'⟩

theorem refines_count {k : Count} (hk : k.bound ≤ 2 ^ 32) :
    Refines buffer (count buffer k) (Reader.count k) fun w n => w.toNat = n ∧ n < 2 ^ 32 := by
  cases k with
  | inTag n =>
    change n + 1 ≤ 2 ^ 32 at hk
    obtain ⟨w, hw, hn⟩ := exists_word (n := n) (by omega)
    change Refines buffer (word n) (pure n) _
    rw [hw]
    exact refines_pure ⟨hn, by omega⟩
  | wide width =>
    change 256 ^ width ≤ 256 ^ 4 at hk
    have hwidth : width ≤ 4 := (Nat.pow_le_pow_iff_right (by decide)).1 hk
    change Refines buffer (number buffer width) (Reader.number width) _
    exact (refines_number hbuffer (by omega)).mono fun w n h => ⟨h.1, h.2.trans_le hk⟩

/-- Behind every type byte, a count fits a word with room to spare. -/
theorem refines_count_bind {tag : UInt8} {format : Format} {k : Count} {g : UInt64 → Step α'}
    {p : Nat → Reader α} {R : α' → α → Prop} (ht : Format.ofByte tag = format)
    (hk : format.count? = some k)
    (hp : ∀ w : UInt64, w.toNat < 2 ^ 32 → Refines buffer (g w) (p w.toNat) R) :
    Refines buffer (count buffer k >>= g) (Reader.count k >>= p) R := by
  have hbound := Format.bound_le tag k (ht ▸ hk)
  refine (refines_count hbuffer hbound).bind fun w n h => ?_
  obtain ⟨rfl, hn⟩ := h
  exact hp w hn

omit hbuffer in
theorem refines_checkDepth (limits : WordLimits) (start level : UInt64) :
    Refines buffer (checkDepth limits start level)
      (Reader.checkDepth limits.toLimits start.toNat level.toNat) fun _ _ => True := by
  unfold checkDepth Reader.checkDepth
  by_cases h : limits.maxDepth ≤ level
  · rw [if_pos h, if_pos (show limits.toLimits.maxDepth ≤ level.toNat from h)]
    exact refines_refuse _
  · rw [if_neg h, if_neg (show ¬ limits.toLimits.maxDepth ≤ level.toNat from h)]
    exact refines_pure trivial

theorem refines_checkRoom (limits : WordLimits) (start length width : UInt64)
    (hitems : length.toNat * width.toNat < 2 ^ 64) :
    Refines buffer (checkRoom buffer limits start length width)
      (Reader.checkRoom limits.toLimits start.toNat length.toNat (length.toNat * width.toNat))
      fun _ _ => True := by
  intro pos hpos
  unfold checkRoom Reader.checkRoom
  by_cases h : limits.maxEntries < length
  · rw [if_pos h, if_pos (show limits.toLimits.maxEntries < length.toNat from h)]
    exact .refused hpos
  rw [if_neg h, if_neg (show ¬ limits.toLimits.maxEntries < length.toNat from h)]
  obtain ⟨items, hmul, hn⟩ := exists_mul hitems
  obtain ⟨left, hleft, hremaining⟩ := exists_remaining hbuffer hpos
  rw [hmul, pure_bind, bind_of_ok hleft, ← hn, ← hremaining]
  by_cases hroom : left < items
  · obtain ⟨needed, hneeded, hsub⟩ := exists_sub (UInt64.lt_iff_toNat_lt.1 hroom).le
    rw [if_pos hroom, if_pos (UInt64.lt_iff_toNat_lt.1 hroom), hneeded, pure_bind, ← hsub,
      offset_cursorAt]
    exact .refused hpos
  · rw [if_neg hroom, if_neg fun hless => hroom (UInt64.lt_iff_toNat_lt.2 hless)]
    exact .ok trivial hpos

theorem refines_container (limits : WordLimits) (start level : UInt64) {length width : UInt64}
    (hitems : length.toNat * width.toNat < 2 ^ 64) :
    Refines buffer (container buffer limits start level length width)
      (Reader.container limits.toLimits start.toNat level.toNat length.toNat width.toNat)
      fun w n => w.toNat = n := by
  refine (refines_checkDepth limits start level).bind fun _ _ _ =>
    (refines_checkRoom hbuffer limits start length width hitems).bind fun _ _ _ => ?_
  obtain ⟨items, hmul, hn⟩ := exists_mul hitems
  rw [hmul]
  exact refines_pure hn

theorem refines_header (limits : WordLimits) (level : UInt64) :
    Refines buffer (header buffer limits level)
      (Reader.header limits.toLimits level.toNat) fun w n => w.toNat = n := by
  unfold header Reader.header
  refine refines_get_bind fun start => (refines_byte hbuffer).bind fun tag' tag htag => ?_
  subst htag
  cases hformat : Format.ofByte tag' with
  | fixed payload =>
    have hpayload : payload ≤ 17 := Format.payload_le tag' payload (by rw [hformat]; rfl)
    obtain ⟨w, hw, hn⟩ := exists_word (n := payload) (by omega)
    simp only [hw, pure_bind]
    rw [← hn]
    exact (refines_skip hbuffer w).bind fun _ _ _ => refines_pure rfl
  | string k | binary k =>
    refine refines_count_bind hbuffer hformat rfl fun w _ => ?_
    exact (refines_skip hbuffer w).bind fun _ _ _ => refines_pure rfl
  | extension k =>
    refine refines_count_bind hbuffer hformat rfl fun w hw => ?_
    obtain ⟨size, hadd, hsize⟩ := exists_add (a := w) (b := 1) (show w.toNat + 1 < _ by omega)
    simp only [hadd, pure_bind]
    rw [show w.toNat + 1 = size.toNat from hsize.symm]
    exact (refines_skip hbuffer size).bind fun _ _ _ => refines_pure rfl
  | array k =>
    refine refines_count_bind hbuffer hformat rfl fun w hw => ?_
    exact refines_container hbuffer limits start level (show w.toNat * 1 < _ by omega)
  | map k =>
    refine refines_count_bind hbuffer hformat rfl fun w hw => ?_
    exact refines_container hbuffer limits start level (show w.toNat * 2 < _ by omega)
  | reserved => exact refines_refuse _

/-! ## The outermost map -/

theorem refines_mapHeader (limits : WordLimits) : Refines buffer (mapHeader buffer limits)
    (Reader.mapHeader limits.toLimits) fun w n => w.toNat = n := by
  unfold mapHeader Reader.mapHeader
  refine refines_get_bind fun start => (refines_byte hbuffer).bind fun tag' tag htag => ?_
  subst htag
  cases hformat : Format.ofByte tag' with
  | map k =>
    refine refines_count_bind hbuffer hformat rfl fun w hw => ?_
    have hroom := refines_checkRoom hbuffer limits start w 2 (show w.toNat * 2 < _ by omega)
    exact (refines_checkDepth limits start 0).bind fun _ _ _ =>
      hroom.bind fun _ _ _ => refines_pure rfl
  | fixed | string | binary | extension | array | reserved => exact refines_refuse _

theorem refines_key : Refines buffer (key buffer) Reader.key Eq := by
  unfold key Reader.key
  refine refines_get_bind fun start => (refines_byte hbuffer).bind fun tag' tag htag => ?_
  subst htag
  cases hformat : Format.ofByte tag' with
  | string k =>
    refine refines_count_bind hbuffer hformat rfl fun w _ => ?_
    refine (refines_take hbuffer w).bind fun text' text h => ?_
    obtain ⟨rfl, -⟩ := h
    cases text'.toString? with
    | some s => exact refines_pure rfl
    | none => exact refines_refuse _
  | fixed | map | binary | extension | array | reserved => exact refines_refuse _

end

end AtomicGroups.Wire.Checked
