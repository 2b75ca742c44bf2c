import Mathlib
import AtomicGroups.Proofs.Wire.Failure
import AtomicGroups.Proofs.Wire.Values
import AtomicGroups.Record.Evidence

/-!
# Faults of values and keys

A value is refused for a header in it, and in front of that header stands what may stand there:
containers that are open, and complete items (`Reader.fails_value`).  A key is refused for its type
byte or for its bytes (`Reader.fails_key`).
-/

namespace AtomicGroups.Wire

/-- What is wrong with a container inside `level` open ones that starts at an offset. -/
inductive ContainerFault (limits : Limits) (level offset : Nat) : Bytes → DecodeError → Prop
  | short {rest : Bytes} {e : DecodeError} : IsShort offset rest e →
    ContainerFault limits level offset rest e
  | depth {header later : Bytes} {length items : Nat} :
    IsContainer header length items → limits.maxDepth ≤ level →
    ContainerFault limits level offset (header ++ later)
      (.depthLimitExceeded offset limits.maxDepth)
  | length {header later : Bytes} {length items : Nat} :
    IsContainer header length items → level < limits.maxDepth → limits.maxEntries < length →
    ContainerFault limits level offset (header ++ later)
      (.containerTooLarge offset length limits.maxEntries)

/-- What is wrong with the header of a value inside `level` open containers. -/
inductive HeaderFault (limits : Limits) (level offset : Nat) : Bytes → DecodeError → Prop
  | container {rest : Bytes} {e : DecodeError} : ContainerFault limits level offset rest e →
    HeaderFault limits level offset rest e
  | reserved {later : Bytes} :
    HeaderFault limits level offset (0xc1 :: later) (.reservedType offset 0xc1)

/-- What is wrong with a value inside `level` open containers: some header in it is. -/
def ValueFault (limits : Limits) (level offset : Nat) (rest : Bytes) (e : DecodeError) : Prop :=
  ∃ depth inner later, rest = inner ++ later ∧
    IsInside limits.maxEntries (limits.maxDepth - level) depth inner ∧
    HeaderFault limits (level + depth) (offset + inner.length) later e

/-- What is wrong with some item of several, all of them inside `level` open containers: the ones in
front of it are complete. -/
def ItemFault (limits : Limits) (level n offset : Nat) (rest : Bytes) (e : DecodeError) : Prop :=
  ∃ k before later, k < n ∧ rest = before ++ later ∧
    AreValues limits.maxEntries (limits.maxDepth - level) k before ∧
    ValueFault limits level (offset + before.length) later e

/-- What is wrong with a key at an offset. -/
inductive KeyFault (offset : Nat) : Bytes → DecodeError → Prop
  | short {rest : Bytes} {e : DecodeError} : IsShort offset rest e → KeyFault offset rest e
  | nonString {tag : UInt8} {later : Bytes} : (∀ k, ¬ TypeByte tag (.string k)) →
    KeyFault offset (tag :: later) (.nonStringKey offset tag)
  | invalid {tag : UInt8} {k : Count} {count text later : Bytes} :
    TypeByte tag (.string k) → k.Spells count text.length → (∀ s, text ≠ Bytes.ofString s) →
    KeyFault offset (tag :: (count ++ text) ++ later) (.invalidKey offset)

section

variable {limits : Limits} {level offset n height depth items : Nat} {b : Bytes} {e : DecodeError}

theorem IsInside.depth_le (h : IsInside n height depth b) : depth ≤ height := by
  induction h with
  | start => exact Nat.zero_le _
  | item _ _ _ _ _ ih => exact Nat.succ_le_succ ih

/-- Of the headers, only those of containers announce items. -/
theorem isContainer_of_announces {tag : UInt8}
    (h : (Format.ofByte tag).Announces n height b items) (hitems : 0 < items) :
    0 < height ∧ ∃ length, length ≤ n ∧ IsContainer (tag :: b) length items := by
  cases ht : Format.ofByte tag with
  | array k =>
    rw [ht] at h
    obtain ⟨length, hk, hlength, hheight, rfl⟩ := h
    exact ⟨hheight, _, hlength, .array (.mk (typeByte_iff.2 ⟨ht, Format.noConfusion⟩) hk)⟩
  | map k =>
    rw [ht] at h
    obtain ⟨length, hk, hlength, hheight, rfl⟩ := h
    exact ⟨hheight, _, hlength, .map (.mk (typeByte_iff.2 ⟨ht, Format.noConfusion⟩) hk)⟩
  | fixed payload =>
    rw [ht] at h
    exact absurd h.2 hitems.ne'
  | string k | binary k =>
    rw [ht] at h
    obtain ⟨count, text, -, -, hzero⟩ := h
    exact absurd hzero hitems.ne'
  | extension k =>
    rw [ht] at h
    obtain ⟨count, payload, n, -, -, -, hzero⟩ := h
    exact absurd hzero hitems.ne'
  | reserved =>
    rw [ht] at h
    exact h.elim

/-- The byte that starts no value is the only one. -/
theorem eq_of_ofByte_reserved {tag : UInt8} (h : Format.ofByte tag = .reserved) : tag = 0xc1 := by
  have table : ∀ n < 256, Format.ofByte (UInt8.ofNat n) = .reserved → UInt8.ofNat n = 0xc1 := by
    decide +kernel
  have htag := table tag.toNat tag.toNat_lt
  rw [UInt8.ofNat_toNat] at htag
  exact htag h

/-- What is wrong with an item of a container is wrong with the container. -/
theorem ItemFault.valueFault {tag : UInt8} {later : Bytes}
    (ha : (Format.ofByte tag).Announces limits.maxEntries (limits.maxDepth - level) b items)
    (h : ItemFault limits (level + 1) items (offset + (tag :: b).length) later e) :
    ValueFault limits level offset (tag :: b ++ later) e := by
  obtain ⟨k, before, later, hk, rfl, hbefore, depth, inner, later, rfl, hinside, hfault⟩ := h
  obtain ⟨hheight, length, hlength, hheader⟩ :=
    isContainer_of_announces ha (Nat.zero_lt_of_lt hk)
  have hlevel : limits.maxDepth - level = limits.maxDepth - (level + 1) + 1 := by omega
  refine ⟨depth + 1, tag :: b ++ before ++ inner, later, by simp, ?_, ?_⟩
  · rw [hlevel]
    exact .item hheader hlength hk hbefore hinside
  · simp only [List.length_append, ← Nat.add_assoc] at hfault ⊢
    rwa [Nat.add_right_comm level]

end

namespace Reader

variable {α : Type} (limits : Limits)

/-- What is wrong with a container whose type byte has been read. -/
theorem fails_count_checks {start level : Nat} {tag : UInt8} {k : Count} (items : Nat → Nat)
    (result : Nat → α)
    (hcontainer : ∀ b n, k.Spells b n → ∃ items, IsContainer (tag :: b) n items) :
    Fails (do
        let length ← count k
        checkDepth limits start level
        checkRoom limits start length (items length)
        return result length)
      fun offset rest e => offset = start + 1 →
        ContainerFault limits level start (tag :: rest) e := by
  refine (fails_count k).bind_short (reads_count k)
    (fun length => fails_checks limits start level length (items length) (result length)) ?_ ?_
  · rintro _ rest e h rfl
    exact .short (IsShort.behind (b := [tag]) h)
  · rintro _ b later length e hk h rfl
    obtain ⟨items, hheader⟩ := hcontainer b length hk
    rw [← List.cons_append]
    rcases h with ⟨hdepth, rfl⟩ | ⟨hdepth, hlength, rfl⟩ | h
    · exact .depth hheader hdepth
    · exact .length hheader hdepth hlength
    · refine .short (IsShort.behind ?_)
      rwa [List.length_cons, Nat.add_comm b.length, ← Nat.add_assoc]

/-! ## Headers and values -/

theorem fails_header (level : Nat) : Fails (header limits level) (HeaderFault limits level) := by
  have hshort (start : Nat) (tag : UInt8) (offset : Nat) (rest : Bytes) (e : DecodeError)
      (h : IsShort offset rest e) (hoffset : offset = start + 1) :
      HeaderFault limits level start (tag :: rest) e := by
    subst hoffset
    exact .container (.short (IsShort.behind (b := [tag]) h))
  unfold header
  refine fails_offset_byte_bind (fun _ _ _ h => .container (.short h)) fun start tag => ?_
  cases ht : Format.ofByte tag with
  | fixed payload =>
    exact (fails_skip payload).bind_short (reads_skip payload) (fun _ => fails_pure 0)
      (hshort start tag) fun _ _ _ _ _ _ => False.elim
  | string k | binary k => exact (fails_count_skip k 0).mono (hshort start tag)
  | extension k => exact (fails_count_skip k 1).mono (hshort start tag)
  | array k =>
    have htag : TypeByte tag (.array k) := typeByte_iff.2 ⟨ht, Format.noConfusion⟩
    exact (fails_count_checks limits (· * 1) (· * 1)
      fun b n hk => ⟨n, .array (.mk htag hk)⟩).mono fun _ _ _ h hoffset => .container (h hoffset)
  | map k =>
    have htag : TypeByte tag (.map k) := typeByte_iff.2 ⟨ht, Format.noConfusion⟩
    exact (fails_count_checks limits (· * 2) (· * 2)
      fun b n hk => ⟨n * 2, .map (.mk htag hk)⟩).mono fun _ _ _ h hoffset => .container (h hoffset)
  | reserved =>
    refine (fails_throw _).mono ?_
    rintro _ rest _ rfl rfl
    rw [eq_of_ofByte_reserved ht]
    exact .reserved

theorem reads_descent (level : Nat) : Reads (descent limits level) fun b _ _ =>
    IsValue limits.maxEntries (limits.maxDepth - level) b :=
  fun c => readsAt_descent limits c.remaining level c le_rfl

/-- If the failures of reading one value are bounded at the cursors from which fewer than `m` bytes
are left, so are those of reading several values. -/
theorem failsAt_descentItems {level m : Nat}
    (hvalue : ∀ c : Cursor, c.remaining < m →
      FailsAt (descent limits level) c (ValueFault limits level)) (n : Nat) :
    ∀ c : Cursor, c.remaining < m →
      FailsAt (descentItems limits level n) c (ItemFault limits level n) := by
  induction n with
  | zero =>
    intro c _
    rw [descentItems_zero]
    exact (fails_pure () c).mono fun _ _ _ => False.elim
  | succ n ih =>
    intro c hc
    rw [descentItems_succ]
    refine (FailsAt.bind (reads_descent limits level c) (hvalue c hc) fun _ d hd => ih d ?_).mono
      fun offset rest e h => ?_
    · exact ((reads_descent limits level c).leads hd).remaining_le.trans_lt hc
    rcases h with h | ⟨b, later, -, rfl, hb, k, before, later, hk, rfl, hbefore, h⟩
    · exact ⟨0, [], rest, Nat.succ_pos n, rfl, .nil, h⟩
    · refine ⟨k + 1, b ++ before, later, Nat.succ_lt_succ hk, (List.append_assoc ..).symm,
        .cons hb hbefore, ?_⟩
      rwa [List.length_append, ← Nat.add_assoc]

/-- Reading by recursion fails for a header in the value.  The induction is on the bytes that are
left: the items of a value come behind its type byte. -/
theorem failsAt_descent (m : Nat) : ∀ (level : Nat) (c : Cursor), c.remaining < m →
    FailsAt (descent limits level) c (ValueFault limits level) := by
  induction m with
  | zero =>
    intro level c hc
    exact absurd hc (Nat.not_lt_zero _)
  | succ m ih =>
    intro level c hc
    rw [descent_eq]
    refine (FailsAt.bind (reads_header limits level c) (fails_header limits level c)
      fun items d hd => failsAt_descentItems limits (ih (level + 1)) items d ?_).mono
      fun offset rest e h => ?_
    · have := consuming_header limits level c items d hd
      omega
    rcases h with h | ⟨-, later, items, rfl, ⟨tag, announced, rfl, ha, -⟩, h⟩
    · exact ⟨0, [], rest, rfl, .start, h⟩
    · exact h.valueFault ha

theorem fails_value (level : Nat) : Fails (value limits level) (ValueFault limits level) := by
  unfold value
  rw [Walk.run_start]
  exact Fails.spanned fun c =>
    failsAt_descent limits (c.remaining + 1) level c (Nat.lt_succ_self _)

/-- The outermost map is a container inside no other one, if it is a map at all. -/
theorem fails_mapHeader : Fails (mapHeader limits) fun offset rest e =>
    ContainerFault limits 0 offset rest e ∨ ∃ tag later, rest = tag :: later ∧
      (∀ k, ¬ TypeByte tag (.map k)) ∧ e = .notAMap tag := by
  unfold mapHeader
  refine fails_offset_byte_bind (fun _ _ _ h => .inl (.short h)) fun start tag => ?_
  cases ht : Format.ofByte tag with
  | map k =>
    have htag : TypeByte tag (.map k) := typeByte_iff.2 ⟨ht, Format.noConfusion⟩
    exact (fails_count_checks limits (· * 2) id
      fun b n hk => ⟨n * 2, .map (.mk htag hk)⟩).mono fun _ _ _ h hoffset => .inl (h hoffset)
  | fixed | string | binary | extension | array | reserved =>
    refine (fails_throw _).mono ?_
    rintro _ rest _ rfl -
    refine .inr ⟨tag, rest, rfl, fun k hk => ?_, rfl⟩
    rw [hk.ofByte_eq] at ht
    cases ht

/-! ## Keys -/

/-- A text is no key only if its bytes are those of no string. -/
theorem fails_text (start : Nat) (text : Bytes) :
    Fails (match text.toString? with
      | some s => return s
      | none => throw (.invalidKey start)) fun _ _ e =>
        (∀ s, text ≠ Bytes.ofString s) ∧ e = .invalidKey start := by
  cases hs : text.toString? with
  | some s => exact (fails_pure s).mono fun _ _ _ => False.elim
  | none =>
    refine (fails_throw _).mono ?_
    rintro _ _ _ rfl
    refine ⟨fun s hs' => ?_, rfl⟩
    rw [hs', Bytes.toString?_ofString] at hs
    cases hs

theorem fails_key : Fails key KeyFault := by
  unfold key
  refine fails_offset_byte_bind (fun _ _ _ => .short) fun start tag => ?_
  cases ht : Format.ofByte tag with
  | string k =>
    have htag : TypeByte tag (.string k) := typeByte_iff.2 ⟨ht, Format.noConfusion⟩
    refine (fails_count k).bind_short (reads_count k) (fun n => (fails_take n).bind (reads_take n)
      fun text => fails_text start text) ?_ ?_
    · rintro _ rest e h rfl
      exact .short (IsShort.behind (b := [tag]) h)
    · rintro _ count later n e hk h rfl
      rcases h with h | ⟨text, later, _, rfl, ⟨rfl, rfl⟩, hinvalid, rfl⟩
      · refine .short (IsShort.behind (b := tag :: count) ?_)
        rwa [List.length_cons, Nat.add_comm count.length, ← Nat.add_assoc]
      · rw [← List.append_assoc, ← List.cons_append]
        exact .invalid htag hk hinvalid
  | fixed | map | binary | extension | array | reserved =>
    refine (fails_throw _).mono ?_
    rintro _ rest _ rfl rfl
    refine .nonString fun k hk => ?_
    rw [hk.ofByte_eq] at ht
    cases ht

end Reader

end AtomicGroups.Wire
