import Mathlib
import AtomicGroups.Proofs.Wire.Descent
import AtomicGroups.Proofs.Wire.TypeByte

/-!
# The reader of values and its grammar

The reader of values accepts exactly the values of the grammar (`Reader.reads_value`), whatever
follows them.  Two consequences of the grammar alone: looser limits accept more (`IsValue.mono`),
and no value is the beginning of another one (`IsValue.unique`).
-/

namespace AtomicGroups.Wire

/-! ## Headers -/

/-- What may stand between a type byte and the items of its value: the bytes `b` of a count and,
unless the value is a container, of a payload.  `items` is the number of values that follow. -/
def Format.Announces (maxEntries height : Nat) (f : Format) (b : Bytes) (items : Nat) : Prop :=
  match f with
  | .fixed payload => b.length = payload ∧ items = 0
  | .string k | .binary k =>
    ∃ count text, b = count ++ text ∧ k.Spells count text.length ∧ items = 0
  | .extension k =>
    ∃ count payload n, b = count ++ payload ∧ k.Spells count n ∧ payload.length = n + 1 ∧ items = 0
  | .array k => ∃ n, k.Spells b n ∧ n ≤ maxEntries ∧ 0 < height ∧ items = n
  | .map k => ∃ n, k.Spells b n ∧ n ≤ maxEntries ∧ 0 < height ∧ items = n * 2
  | .reserved => False

variable {e e' h h' n : Nat} {b rest : Bytes}

/-- A value is a type byte, what it announces, and the items. -/
theorem isValue_iff {v : Bytes} : IsValue e h v ↔ ∃ tag b items body, v = tag :: (b ++ body) ∧
    (Format.ofByte tag).Announces e h b items ∧ AreValues e (h - 1) items body := by
  constructor
  · intro hv
    cases hv with
    | @fixed _ tag payload ht =>
      exact ⟨tag, payload, 0, [], by rw [List.append_nil],
        by rw [ht.ofByte_eq]; exact ⟨rfl, rfl⟩, .nil⟩
    | @string _ tag k count text ht hk =>
      exact ⟨tag, count ++ text, 0, [], by rw [List.append_nil],
        by rw [ht.ofByte_eq]; exact ⟨count, text, rfl, hk, rfl⟩, .nil⟩
    | @binary _ tag k count payload ht hk =>
      exact ⟨tag, count ++ payload, 0, [], by rw [List.append_nil],
        by rw [ht.ofByte_eq]; exact ⟨count, payload, rfl, hk, rfl⟩, .nil⟩
    | @extension _ tag type k count payload ht hk =>
      exact ⟨tag, count ++ type :: payload, 0, [], by rw [List.append_nil],
        by rw [ht.ofByte_eq]; exact ⟨count, type :: payload, _, rfl, hk, rfl, rfl⟩, .nil⟩
    | @array height tag k count items n ht hk hn hi =>
      exact ⟨tag, count, n, items, rfl,
        by rw [ht.ofByte_eq]; exact ⟨n, hk, hn, Nat.succ_pos height, rfl⟩, hi⟩
    | @map height tag k count items n ht hk hn hi =>
      exact ⟨tag, count, n * 2, items, rfl,
        by rw [ht.ofByte_eq]; exact ⟨n, hk, hn, Nat.succ_pos height, rfl⟩, hi⟩
  · rintro ⟨tag, b, items, body, rfl, ha, hbody⟩
    have hnil (hz : items = 0) : body = [] := by
      subst hz
      cases hbody
      rfl
    have htag (f : Format) (ht : Format.ofByte tag = f) (hf : f ≠ .reserved) : TypeByte tag f :=
      typeByte_iff.2 ⟨ht, hf⟩
    cases ht : Format.ofByte tag with
    | fixed payload =>
      rw [ht] at ha
      obtain ⟨hlen, hz⟩ := ha
      rw [hnil hz, List.append_nil]
      exact .fixed (htag _ (by rw [ht, hlen]) Format.noConfusion)
    | string k =>
      rw [ht] at ha
      obtain ⟨count, text, rfl, hk, hz⟩ := ha
      rw [hnil hz, List.append_nil]
      exact .string (htag _ ht Format.noConfusion) hk
    | binary k =>
      rw [ht] at ha
      obtain ⟨count, payload, rfl, hk, hz⟩ := ha
      rw [hnil hz, List.append_nil]
      exact .binary (htag _ ht Format.noConfusion) hk
    | extension k =>
      rw [ht] at ha
      obtain ⟨count, payload, n, rfl, hk, hlen, hz⟩ := ha
      rw [hnil hz, List.append_nil]
      cases payload with
      | nil => cases hlen
      | cons type payload =>
        cases hlen
        exact .extension (htag _ ht Format.noConfusion) hk
    | array k =>
      rw [ht] at ha
      obtain ⟨n, hk, hn, hpos, rfl⟩ := ha
      obtain ⟨height, rfl⟩ := Nat.exists_eq_succ_of_ne_zero hpos.ne'
      exact .array (htag _ ht Format.noConfusion) hk hn hbody
    | map k =>
      rw [ht] at ha
      obtain ⟨n, hk, hn, hpos, rfl⟩ := ha
      obtain ⟨height, rfl⟩ := Nat.exists_eq_succ_of_ne_zero hpos.ne'
      exact .map (htag _ ht Format.noConfusion) hk hn hbody
    | reserved =>
      rw [ht] at ha
      exact ha.elim

theorem areValues_zero_iff : AreValues e h 0 b ↔ b = [] := by
  constructor
  · intro hb
    cases hb
    rfl
  · rintro rfl
    exact .nil

theorem areValues_succ_iff : AreValues e h (n + 1) b ↔
    ∃ value rest, b = value ++ rest ∧ IsValue e h value ∧ AreValues e h n rest := by
  constructor
  · intro hb
    cases hb with
    | cons hv hr => exact ⟨_, _, rfl, hv, hr⟩
  · rintro ⟨value, rest, rfl, hv, hr⟩
    exact .cons hv hr

theorem IsValue.length_pos (hb : IsValue e h b) : 0 < b.length := by
  obtain ⟨tag, b, items, body, rfl, -⟩ := isValue_iff.1 hb
  exact Nat.succ_pos _

theorem IsKey.length_pos {s : String} (hb : IsKey b s) : 0 < b.length := by
  cases hb
  exact Nat.succ_pos _

/-- Every item takes at least one byte. -/
theorem AreValues.le_length (hb : AreValues e h n b) : n ≤ b.length := by
  induction n generalizing b with
  | zero => exact Nat.zero_le _
  | succ n ih =>
    obtain ⟨value, rest, rfl, hv, hr⟩ := areValues_succ_iff.1 hb
    have hpos := hv.length_pos
    have hle := ih hr
    rw [List.length_append]
    omega

mutual

/-- Looser limits accept more values. -/
theorem IsValue.mono (he : e ≤ e') {h : Nat} {b : Bytes} :
    ∀ {h' : Nat}, h ≤ h' → IsValue e h b → IsValue e' h' b
  | _, _, .fixed ht => .fixed ht
  | _, _, .string ht hk => .string ht hk
  | _, _, .binary ht hk => .binary ht hk
  | _, _, .extension ht hk => .extension ht hk
  | _ + 1, hh, .array ht hk hn hv =>
    .array ht hk (hn.trans he) (AreValues.mono he (Nat.le_of_succ_le_succ hh) hv)
  | _ + 1, hh, .map ht hk hn hv =>
    .map ht hk (hn.trans he) (AreValues.mono he (Nat.le_of_succ_le_succ hh) hv)

theorem AreValues.mono (he : e ≤ e') {h n : Nat} {b : Bytes} :
    ∀ {h' : Nat}, h ≤ h' → AreValues e h n b → AreValues e' h' n b
  | _, _, .nil => .nil
  | _, hh, .cons hv hr => .cons (IsValue.mono he hh hv) (AreValues.mono he hh hr)

end

/-! ## Reading -/

namespace Reader

variable (limits : Limits)

theorem reads_container (start level length width : Nat) :
    Reads (container limits start level length width) fun b rest items =>
      b = [] ∧ items = length * width ∧ length ≤ limits.maxEntries ∧ level < limits.maxDepth ∧
        items ≤ rest.length := by
  refine ((reads_checkDepth limits start level).bind fun _ =>
    (reads_checkRoom limits start length (length * width)).bind fun _ =>
      reads_pure (length * width)).congr fun b rest items => ?_
  constructor
  · rintro ⟨b₁, b₂, -, rfl, ⟨rfl, hlevel⟩, b₃, b₄, -, rfl, ⟨rfl, hlen, hroom⟩, rfl, rfl⟩
    exact ⟨rfl, rfl, hlen, hlevel, hroom⟩
  · rintro ⟨rfl, rfl, hlen, hlevel, hroom⟩
    exact ⟨[], [], (), rfl, ⟨rfl, hlevel⟩, [], [], (), rfl, ⟨rfl, hlen, hroom⟩, rfl, rfl⟩

theorem reads_count_container (start level : Nat) (k : Count) (width : Nat) :
    Reads (do container limits start level (← count k) width) fun b rest items =>
      (∃ n, k.Spells b n ∧ n ≤ limits.maxEntries ∧ 0 < limits.maxDepth - level ∧
        items = n * width) ∧ items ≤ rest.length := by
  have hlevel : level < limits.maxDepth ↔ 0 < limits.maxDepth - level := by omega
  refine ((reads_count k).bind fun n => reads_container limits start level n width).congr
    fun b rest items => ?_
  constructor
  · rintro ⟨count, b₂, n, rfl, hk, rfl, rfl, hn, hl, hroom⟩
    rw [List.append_nil]
    exact ⟨⟨n, hk, hn, hlevel.1 hl, rfl⟩, hroom⟩
  · rintro ⟨⟨n, hk, hn, hl, rfl⟩, hroom⟩
    exact ⟨b, [], n, (List.append_nil b).symm, hk, rfl, rfl, hn, hlevel.2 hl, hroom⟩

theorem reads_count_skip (k : Count) (extra : Nat) :
    Reads (do skip ((← count k) + extra); return 0) fun b _ items =>
      ∃ count payload n, b = count ++ payload ∧ k.Spells count n ∧ payload.length = n + extra ∧
        items = 0 := by
  refine ((reads_count k).bind fun n => (reads_skip (n + extra)).bind fun _ =>
    reads_pure 0).congr fun b rest items => ?_
  constructor
  · rintro ⟨count, b₂, n, rfl, hk, payload, b₄, -, rfl, hlen, rfl, rfl⟩
    exact ⟨count, payload, n, by rw [List.append_nil], hk, hlen, rfl⟩
  · rintro ⟨count, payload, n, rfl, hk, hlen, rfl⟩
    exact ⟨count, payload, n, rfl, hk, payload, [], (), (List.append_nil _).symm, hlen, rfl, rfl⟩

/-- A header is read exactly if it is one and there are at least as many bytes behind it as it
announces items. -/
theorem reads_header (level : Nat) :
    Reads (header limits level) fun b rest items => ∃ tag announced, b = tag :: announced ∧
      (Format.ofByte tag).Announces limits.maxEntries (limits.maxDepth - level) announced items ∧
        items ≤ rest.length := by
  unfold header
  refine (Reads.afterOffset fun start => Reads.bind (H := fun tag b rest items =>
    (Format.ofByte tag).Announces limits.maxEntries (limits.maxDepth - level) b items ∧
      items ≤ rest.length) reads_byte fun tag => ?_).congr fun b rest items => ?_
  · cases Format.ofByte tag with
    | fixed payload =>
      refine ((reads_skip payload).bind fun _ => reads_pure 0).congr fun b rest items => ?_
      constructor
      · rintro ⟨b₁, b₂, -, rfl, hlen, rfl, rfl⟩
        exact ⟨⟨by rw [List.append_nil, hlen], rfl⟩, Nat.zero_le _⟩
      · rintro ⟨⟨hlen, rfl⟩, -⟩
        exact ⟨b, [], (), (List.append_nil b).symm, hlen, rfl, rfl⟩
    | string k | binary k =>
      refine (reads_count_skip k 0).congr fun b rest items => ?_
      constructor
      · rintro ⟨count, text, n, rfl, hk, rfl, rfl⟩
        exact ⟨⟨count, text, rfl, hk, rfl⟩, Nat.zero_le _⟩
      · rintro ⟨⟨count, text, rfl, hk, rfl⟩, -⟩
        exact ⟨count, text, _, rfl, hk, rfl, rfl⟩
    | extension k =>
      refine (reads_count_skip k 1).congr fun b rest items => ?_
      constructor
      · rintro ⟨count, payload, n, rfl, hk, hlen, rfl⟩
        exact ⟨⟨count, payload, n, rfl, hk, hlen, rfl⟩, Nat.zero_le _⟩
      · rintro ⟨h, -⟩
        exact h
    | array k =>
      refine (reads_count_container limits start level k 1).congr fun b rest items => ?_
      simp only [Format.Announces, Nat.mul_one]
    | map k => exact reads_count_container limits start level k 2
    | reserved =>
      refine (reads_throw _).congr fun b rest items => ?_
      simp [Format.Announces]
  · constructor
    · rintro ⟨b₁, announced, tag, rfl, rfl, ha, hroom⟩
      exact ⟨tag, announced, rfl, ha, hroom⟩
    · rintro ⟨tag, announced, rfl, ha, hroom⟩
      exact ⟨[tag], announced, tag, rfl, rfl, ha, hroom⟩

/-- If the reader of one value is described at the cursors from which at most `m` bytes are left,
so is the reader of several values. -/
theorem readsAt_descentItems {level m : Nat}
    (hvalue : ∀ c : Cursor, c.remaining ≤ m → ReadsAt (descent limits level) c fun b _ _ =>
      IsValue limits.maxEntries (limits.maxDepth - level) b) (n : Nat) :
    ∀ c : Cursor, c.remaining ≤ m → ReadsAt (descentItems limits level n) c fun b _ _ =>
      AreValues limits.maxEntries (limits.maxDepth - level) n b := by
  induction n with
  | zero =>
    intro c _
    rw [descentItems_zero]
    refine (reads_pure () c).congr fun b rest _ => ?_
    rw [areValues_zero_iff]
    exact ⟨And.left, fun hb => ⟨hb, rfl⟩⟩
  | succ n ih =>
    intro c hc
    rw [descentItems_succ]
    refine ((hvalue c hc).bind fun _ d hd => ih d ?_).congr fun b rest _ => ?_
    · obtain ⟨v, -, rfl, -⟩ := (hvalue c hc _ _).1 hd
      exact (Nat.sub_le _ _).trans hc
    · rw [areValues_succ_iff]
      constructor
      · rintro ⟨value, items, -, rfl, hv, hr⟩
        exact ⟨value, items, rfl, hv, hr⟩
      · rintro ⟨value, items, rfl, hv, hr⟩
        exact ⟨value, items, (), rfl, hv, hr⟩

/-- The recursive reader accepts exactly the values of the grammar.  The induction is on the bytes
that are left: the items of a value come behind its type byte. -/
theorem readsAt_descent (m : Nat) : ∀ (level : Nat) (c : Cursor), c.remaining ≤ m →
    ReadsAt (descent limits level) c fun b _ _ =>
      IsValue limits.maxEntries (limits.maxDepth - level) b := by
  induction m with
  | zero =>
    intro level c hc u d
    rw [descent_eq, bind_eq_ok]
    constructor
    · rintro ⟨items, c', hh, -⟩
      have := consuming_header limits level c items c' hh
      omega
    · rintro ⟨b, hb, -, hv⟩
      have hpos := hv.length_pos
      have hlen := congrArg List.length hb
      rw [← c.remaining_eq, List.length_append] at hlen
      omega
  | succ m ih =>
    intro level c hc
    rw [descent_eq]
    refine ((reads_header limits level c).bind fun items d hd =>
      readsAt_descentItems limits (ih (level + 1)) items d ?_).congr fun b rest _ => ?_
    · have := consuming_header limits level c items d hd
      omega
    · rw [isValue_iff, Nat.sub_add_eq]
      constructor
      · rintro ⟨-, body, items, rfl, ⟨tag, announced, rfl, ha, -⟩, hbody⟩
        exact ⟨tag, announced, items, body, rfl, ha, hbody⟩
      · rintro ⟨tag, announced, items, body, rfl, ha, hbody⟩
        have hroom := hbody.le_length
        refine ⟨tag :: announced, body, items, rfl, ⟨tag, announced, rfl, ha, ?_⟩, hbody⟩
        rw [List.length_append]
        omega

/-- The reader of values accepts exactly the values of the grammar and gives their bytes. -/
theorem reads_value (level : Nat) : Reads (value limits level) fun b _ x =>
    x = b ∧ IsValue limits.maxEntries (limits.maxDepth - level) b := by
  unfold value
  rw [Walk.run_start]
  exact Reads.spanned fun c => readsAt_descent limits c.remaining level c le_rfl

/-- The bytes of a key are a text in UTF-8. -/
theorem reads_text (start : Nat) (text : Bytes) :
    Reads (match text.toString? with
      | some s => return s
      | none => throw (.invalidKey start)) fun b _ s => b = [] ∧ text = Bytes.ofString s := by
  cases hs : text.toString? with
  | some s =>
    rw [Bytes.toString?_eq_some_iff] at hs
    refine (reads_pure s).congr fun b rest x => and_congr_right fun _ => ?_
    constructor
    · rintro rfl
      exact hs
    · intro hx
      exact Bytes.ofString_injective (hx.symm.trans hs)
  | none =>
    refine (reads_throw _).congr fun b rest x => ⟨False.elim, ?_⟩
    rintro ⟨-, rfl⟩
    rw [Bytes.toString?_ofString] at hs
    cases hs

theorem reads_key : Reads key fun b _ s => IsKey b s := by
  unfold key
  refine (Reads.afterOffset fun start => Reads.bind (H := fun tag b _ s => IsKey (tag :: b) s)
    reads_byte fun tag => ?_).congr fun b rest s => ?_
  · cases ht : Format.ofByte tag with
    | string k =>
      refine ((reads_count k).bind fun n => (reads_take n).bind fun text =>
        reads_text start text).congr fun b rest s => ?_
      constructor
      · rintro ⟨count, b₂, n, rfl, hk, text, b₄, x, rfl, ⟨hlen, rfl⟩, rfl, rfl⟩
        rw [← hlen] at hk
        rw [List.append_nil]
        exact .mk (typeByte_iff.2 ⟨ht, Format.noConfusion⟩) hk
      · rintro hk
        cases hk with
        | @mk _ k' count _ ht' hk =>
          rw [ht'.ofByte_eq] at ht
          cases ht
          exact ⟨count, Bytes.ofString s, _, rfl, hk, _, [], _, (List.append_nil _).symm,
            ⟨rfl, rfl⟩, rfl, rfl⟩
    | fixed | map | binary | extension | array | reserved =>
      refine (reads_throw _).congr fun b rest s => ⟨False.elim, ?_⟩
      rintro ⟨ht', -⟩
      rw [ht'.ofByte_eq] at ht
      cases ht
  · constructor
    · rintro ⟨-, b, tag, rfl, rfl, hk⟩
      exact hk
    · rintro hk
      cases hk with
      | mk ht hk => exact ⟨_, _, _, rfl, rfl, .mk ht hk⟩

/-- The header of the outermost map is read exactly if it announces no more entries than allowed and
there are at least two bytes behind it for each. -/
theorem reads_mapHeader : Reads (mapHeader limits) fun b rest n =>
    (∃ tag k count, b = tag :: count ∧ Format.ofByte tag = .map k ∧ k.Spells count n) ∧
      0 < limits.maxDepth ∧ n ≤ limits.maxEntries ∧ n * 2 ≤ rest.length := by
  unfold mapHeader
  refine (Reads.afterOffset fun start => Reads.bind (H := fun tag b rest n =>
    (∃ k, Format.ofByte tag = .map k ∧ k.Spells b n) ∧
      0 < limits.maxDepth ∧ n ≤ limits.maxEntries ∧ n * 2 ≤ rest.length)
    reads_byte fun tag => ?_).congr fun b rest n => ?_
  · cases ht : Format.ofByte tag with
    | map k =>
      refine ((reads_count k).bind fun n => (reads_checkDepth limits start 0).bind fun _ =>
        (reads_checkRoom limits start n (n * 2)).bind fun _ =>
          reads_pure n).congr fun b rest n => ?_
      constructor
      · rintro ⟨count, -, n, rfl, hk, -, -, -, rfl, ⟨rfl, hd⟩, -, -, -, rfl, ⟨rfl, hn, hroom⟩, rfl,
          rfl⟩
        simp only [List.append_nil]
        exact ⟨⟨k, rfl, hk⟩, hd, hn, hroom⟩
      · rintro ⟨⟨k', hk', hk⟩, hd, hn, hroom⟩
        cases hk'
        exact ⟨b, [], n, (List.append_nil b).symm, hk, [], [], (), rfl, ⟨rfl, hd⟩, [], [], (), rfl,
          ⟨rfl, hn, hroom⟩, rfl, rfl⟩
    | fixed | string | binary | extension | array | reserved =>
      refine (reads_throw _).congr fun b rest n => ⟨False.elim, ?_⟩
      rintro ⟨⟨k, hk, -⟩, -⟩
      cases hk
  · constructor
    · rintro ⟨-, count, tag, rfl, rfl, ⟨k, ht, hk⟩, h⟩
      exact ⟨⟨tag, k, count, rfl, ht, hk⟩, h⟩
    · rintro ⟨⟨tag, k, count, rfl, ht, hk⟩, h⟩
      exact ⟨[tag], count, tag, rfl, rfl, ⟨k, ht, hk⟩, h⟩

end Reader

/-- No value is the beginning of another one, under whatever limits the two are values. -/
theorem IsValue.unique {b b' rest rest' : Bytes} (hb : IsValue e h b) (hb' : IsValue e' h' b')
    (heq : b ++ rest = b' ++ rest') : b = b' ∧ rest = rest' := by
  have h₁ : IsValue (max e e') (max h h') b := hb.mono (le_max_left _ _) (le_max_left _ _)
  have h₂ : IsValue (max e e') (max h h') b' := hb'.mono (le_max_right _ _) (le_max_right _ _)
  have hread := Reader.reads_value ⟨max h h', max e e'⟩ 0
  obtain ⟨hv, hrest, -⟩ := hread.unique ⟨rfl, h₁⟩ ⟨rfl, h₂⟩ heq
  exact ⟨hv, hrest⟩

/-- No key is the beginning of another one. -/
theorem IsKey.unique {b b' rest rest' : Bytes} {s s' : String} (hb : IsKey b s) (hb' : IsKey b' s')
    (heq : b ++ rest = b' ++ rest') : b = b' ∧ rest = rest' ∧ s = s' :=
  Reader.reads_key.unique hb hb' heq

end AtomicGroups.Wire
