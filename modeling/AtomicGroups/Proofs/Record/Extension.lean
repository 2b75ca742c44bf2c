import Mathlib
import AtomicGroups.Proofs.Record.Decoding
import AtomicGroups.Proofs.Wire.Extension

/-!
# Records with more bytes behind them

What the decoder says of some bytes determines what it says once more bytes follow
(`Record.decode_extended`), up to what it finds behind the place where the bytes ended too early.
So a record that is cut off is refused because its end is missing (`Record.decode_append`).
-/

namespace AtomicGroups

open Wire Wire.Reader

variable (limits : Limits)

/-! ## Entries -/

theorem extends_readEntry (before : FieldMap) :
    Extends Cursor.Reached Cursor.Reached (readEntry limits before) := by
  refine extends_key.bind fun key => extends_offset_bind fun start =>
    (extends_value limits 1).bind fun encoded => ?_
  dsimp only
  by_cases hmem : key ∈ before
  · rw [if_pos hmem]
    exact extends_throw trivial
  rw [if_neg hmem]
  by_cases hgroup : key = groupKey ∧ (Field.mk encoded).digest? = none
  · rw [if_pos hgroup]
    exact extends_throw trivial
  · rw [if_neg hgroup]
    exact extends_pure _

theorem extends_readEntries (n : Nat) (before : FieldMap) :
    Extends Cursor.Reached Cursor.Reached (readEntries limits n before) := by
  induction n generalizing before with
  | zero => exact extends_pure before
  | succ n ih => exact (extends_readEntry limits before).bind ih

theorem extends_readBody : Extends Cursor.Reached Cursor.Reached (readBody limits) :=
  (extends_mapHeader limits).bind fun n => extends_readEntries limits n ∅

variable {limits}

theorem offset_of_readBody {b : Bytes} {entries : FieldMap} {d : Cursor}
    (h : readBody limits (Cursor.start b) = .ok entries d) : d.offset + d.remaining = b.length :=
  ((reads_readBody limits (Cursor.start b)).leads h).offset_add_remaining.trans (Nat.zero_add _)

/-! ## Records -/

namespace Record

/-- Behind the last entry nothing may follow. -/
theorem decode_of_readBody_eq_ok {b : Bytes} {entries : FieldMap} {d : Cursor}
    (h : readBody limits (Cursor.start b) = .ok entries d) : decode limits b =
      if d.remaining = 0 then .ok (ofEntries entries)
      else .error (.trailingBytes d.offset d.remaining) := by
  unfold decode Reader.parse
  rw [readRecord_eq, bind_of_ok h]
  by_cases hd : d.remaining = 0
  · have hfinish : finish d = .ok () d := if_pos hd
    rw [bind_of_ok hfinish, if_pos hd]
    rfl
  · have hfinish : finish d = .error (.trailingBytes d.offset d.remaining) d := if_neg hd
    rw [bind_of_error hfinish, if_neg hd]

theorem decode_of_readBody_eq_error {b : Bytes} {e : DecodeError} {d : Cursor}
    (h : readBody limits (Cursor.start b) = .error e d) : decode limits b = .error e := by
  unfold decode Reader.parse
  rw [readRecord_eq, bind_of_error h]

/-- What the decoder says of `length` bytes, and what it says of them with `ext` behind. -/
inductive Extended (length : Nat) (ext : Bytes) :
    Except DecodeError Record → Except DecodeError Record → Prop
  | same (r : Record) : ext = [] → Extended length ext (.ok r) (.ok r)
  | whole (r : Record) : ext ≠ [] →
    Extended length ext (.ok r) (.error (.trailingBytes length ext.length))
  | trailing (offset remaining : Nat) : Extended length ext
      (.error (.trailingBytes offset remaining))
      (.error (.trailingBytes offset (remaining + ext.length)))
  | final {e : DecodeError} : e.IsFinal → Extended length ext (.error e) (.error e)
  | short {offset needed : Nat} : ext.length < needed → Extended length ext
      (.error (.endOfInput offset needed)) (.error (.endOfInput offset (needed - ext.length)))
  | enough {offset needed : Nat} {result : Except DecodeError Record} : needed ≤ ext.length →
    (∀ offset' needed', result = .error (.endOfInput offset' needed') → offset < offset') →
    Extended length ext (.error (.endOfInput offset needed)) result

namespace Extended

variable {length offset needed remaining : Nat} {ext : Bytes} {e : DecodeError} {r : Record}
  {before after : Except DecodeError Record}

theorem of_ok (h : Extended length ext (.ok r) after) (hext : ext ≠ []) :
    after = .error (.trailingBytes length ext.length) := by
  cases h with
  | same _ hnil => exact absurd hnil hext
  | whole => rfl

theorem of_trailingBytes
    (h : Extended length ext (.error (.trailingBytes offset remaining)) after) :
    after = .error (.trailingBytes offset (remaining + ext.length)) := by
  cases h with
  | trailing => rfl
  | final he => exact he.elim

theorem of_lt (h : Extended length ext (.error (.endOfInput offset needed)) after)
    (hlt : ext.length < needed) : after = .error (.endOfInput offset (needed - ext.length)) := by
  cases h with
  | final he => exact he.elim
  | short => rfl
  | enough hle => exact absurd hle hlt.not_ge

theorem of_le (h : Extended length ext (.error (.endOfInput offset needed)) after)
    (hle : needed ≤ ext.length) {offset' needed' : Nat}
    (hafter : after = .error (.endOfInput offset' needed')) : offset < offset' := by
  cases h with
  | final he => exact he.elim
  | short hlt => exact absurd hle hlt.not_ge
  | enough _ hbehind => exact hbehind offset' needed' hafter

theorem of_isFinal (h : Extended length ext (.error e) after) (he : e.IsFinal) :
    after = .error e := by
  cases h with
  | final => rfl
  | trailing | short | enough => exact he.elim

/-- Of what becomes a record, only the end was missing. -/
theorem exists_of_ok (h : Extended length ext before (.ok r)) (hext : ext ≠ []) :
    ∃ offset needed, before = .error (.endOfInput offset needed) ∧ needed ≤ ext.length := by
  cases h with
  | same _ hnil => exact absurd hnil hext
  | enough hle => exact ⟨_, _, rfl, hle⟩

end Extended

variable (limits) in
theorem decode_extended (b ext : Bytes) :
    Extended b.length ext (decode limits b) (decode limits (b ++ ext)) := by
  have h := (extends_readBody limits).extended ext (Cursor.start b)
  rw [← Cursor.start_append] at h
  generalize ho : readBody limits (Cursor.start b) = o,
    ho' : readBody limits (Cursor.start (b ++ ext)) = o' at h
  cases h with
  | ok entries d =>
    rw [decode_of_readBody_eq_ok ho, decode_of_readBody_eq_ok ho', Cursor.remaining_extend,
      Cursor.offset_extend]
    have hoffset := offset_of_readBody ho
    by_cases hd : d.remaining = 0
    · rw [if_pos hd, hd, Nat.zero_add]
      by_cases hext : ext = []
      · rw [if_pos (List.length_eq_zero_iff.2 hext)]
        exact .same _ hext
      · rw [if_neg (List.length_eq_zero_iff.not.2 hext), show d.offset = b.length by omega]
        exact .whole _ hext
    · rw [if_neg hd, if_neg (by omega)]
      exact .trailing _ _
  | final d he =>
    rw [decode_of_readBody_eq_error ho, decode_of_readBody_eq_error ho']
    exact .final he
  | short d hn =>
    rw [decode_of_readBody_eq_error ho, decode_of_readBody_eq_error ho']
    exact .short hn
  | enough d hn hbehind =>
    rw [decode_of_readBody_eq_error ho]
    refine .enough hn fun offset' needed' hresult => ?_
    cases o' with
    | ok entries d' =>
      rw [decode_of_readBody_eq_ok ho'] at hresult
      split_ifs at hresult
      cases hresult
    | error e d' =>
      rw [decode_of_readBody_eq_error ho'] at hresult
      cases hresult
      exact hbehind offset' needed' rfl

/-- Bytes behind a record are trailing bytes, and as many more of them if there were some before.
Where the input ended early, further bytes are needed no more; once there are enough, it ends
further on if it ends early at all.  Every other error stays.  So of a record no part from the front
is a record: it is refused for bytes that the rest of the record would supply. -/
theorem decode_append (limits : Limits) (b ext : Bytes) :
    (∀ r, decode limits b = .ok r → ext ≠ [] →
      decode limits (b ++ ext) = .error (.trailingBytes b.length ext.length)) ∧
    (∀ offset remaining, decode limits b = .error (.trailingBytes offset remaining) →
      decode limits (b ++ ext) = .error (.trailingBytes offset (remaining + ext.length))) ∧
    (∀ offset needed, decode limits b = .error (.endOfInput offset needed) →
      (ext.length < needed →
        decode limits (b ++ ext) = .error (.endOfInput offset (needed - ext.length))) ∧
      (needed ≤ ext.length → ∀ offset' needed',
        decode limits (b ++ ext) = .error (.endOfInput offset' needed') → offset < offset')) ∧
    (∀ e, decode limits b = .error e → e.IsFinal → decode limits (b ++ ext) = .error e) ∧
    ∀ r p, decode limits b = .ok r → p <+: b → p ≠ b → ∃ offset needed,
      decode limits p = .error (.endOfInput offset needed) ∧ needed ≤ b.length - p.length := by
  have hextended := decode_extended limits b ext
  refine ⟨fun r h hext => ?_, fun offset remaining h => ?_, fun offset needed h => ?_,
    fun e h he => ?_, fun r p h hp hne => ?_⟩
  · rw [h] at hextended
    exact hextended.of_ok hext
  · rw [h] at hextended
    exact hextended.of_trailingBytes
  · rw [h] at hextended
    exact ⟨hextended.of_lt, fun hle offset' needed' => hextended.of_le hle⟩
  · rw [h] at hextended
    exact hextended.of_isFinal he
  · obtain ⟨ext, rfl⟩ := hp
    have hext : ext ≠ [] := by
      rintro rfl
      exact hne (List.append_nil p).symm
    have hp := decode_extended limits p ext
    rw [h] at hp
    rw [List.length_append, Nat.add_sub_cancel_left]
    exact hp.exists_of_ok hext

/-- A record with an array of two items: with a byte behind it, and with another one; cut off in
front of the items, and with bytes behind it there that end early again; and one whose key is
none. -/
theorem decode_append_array :
    let b : Bytes := [0x81, 0xa1, 0x61, 0x92, 0x01, 0xc0]
    let p : Bytes := [0x81, 0xa1, 0x61, 0x92]
    let b' : Bytes := [0x81, 0xc1, 0x61]
    decode {} (b ++ [0xff]) = .error (.trailingBytes 6 1) ∧
      decode {} (b ++ [0xff] ++ [0xff]) = .error (.trailingBytes 6 2) ∧
      (∃ offset needed, decode {} p = .error (.endOfInput offset needed) ∧ needed ≤ 2) ∧
      decode {} (p ++ [0xcd]) = .error (.endOfInput 4 1) ∧
      decode {} (p ++ [0xcd, 0x01]) = .error (.endOfInput 5 1) ∧ 4 < 5 ∧
      decode {} (b' ++ p) = .error (.nonStringKey 1 0xc1) := by
  intro b p b'
  have hok : (decode {} b).isOk = true := by cbv
  have hearly : decode {} p = .error (.endOfInput 4 2) := by cbv
  have hlater : decode {} (p ++ [0xcd, 0x01]) = .error (.endOfInput 5 1) := by cbv
  have hkey : decode {} b' = .error (.nonStringKey 1 0xc1) := by cbv
  cases h : decode {} b with
  | ok r =>
    obtain ⟨hwhole, -, -, -, hpart⟩ := decode_append {} b [0xff]
    have htrailing := hwhole r h (by decide)
    exact ⟨htrailing, (decode_append {} (b ++ [0xff]) [0xff]).2.1 6 1 htrailing,
      hpart r p h (by decide) (by decide),
      ((decode_append {} p [0xcd]).2.2.1 4 2 hearly).1 (by decide), hlater,
      ((decode_append {} p [0xcd, 0x01]).2.2.1 4 2 hearly).2 (by decide) 5 1 hlater,
      (decode_append {} b' p).2.2.2.1 _ hkey trivial⟩
  | error e =>
    rw [h] at hok
    cases hok

end Record

end AtomicGroups
