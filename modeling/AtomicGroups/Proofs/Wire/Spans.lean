import Mathlib
import AtomicGroups.Proofs.Wire.Values

/-!
# The bytes of a value

How far the reader of values goes.  It goes exactly as far as reading by recursion does, and leaves
the same error and cursor where that fails (`Reader.value_eq_spanned_descent`); the level at which a
walk reads a header is that of the value and one more for each open container.  And it goes as far
whatever stands around the value (`Reader.value_selfDelimiting`).
-/

namespace AtomicGroups.Wire

/-! ## The level of a walk -/

namespace Walk

/-- `w.Reaches limits c w' c'` says that the walk `w` at the cursor `c` comes to be the walk `w'` at
the cursor `c'`, header by header. -/
inductive Reaches (limits : Limits) (w : Walk) (c : Cursor) : Walk → Cursor → Prop
  | refl : Reaches limits w c w c
  | step {w' w'' : Walk} {c' c'' : Cursor} :
    Reaches limits w c w' c' → w'.step limits c' = .ok (some w'') c'' → Reaches limits w c w'' c''

variable {limits : Limits} {w w' : Walk} {c c' : Cursor} {base : Nat}

/-- Whether the level of a walk is `base` and one more for each container that owes items. -/
def IsAbove (base : Nat) (w : Walk) : Prop := w.level = base + w.pending.length

theorem isAbove_start (level : Nat) : (start level).IsAbove level := rfl

theorem IsAbove.descend (h : w.IsAbove base) (items : Nat) : (w.descend items).IsAbove base := by
  unfold IsAbove Walk.descend at *
  rw [List.length_cons, h, Nat.add_assoc]

/-- Closing a container takes one level away, so the level still counts the open ones. -/
theorem isAbove_of_settle {level : Nat} {pending : List Nat}
    (hlevel : level = base + pending.length) (h : settle level pending = some w) :
    w.IsAbove base := by
  induction pending generalizing level with
  | nil => cases h
  | cons owed outer ih =>
    rw [List.length_cons] at hlevel
    unfold settle at h
    split_ifs at h with howed
    · exact ih (by omega) h
    · cases h
      exact hlevel

theorem IsAbove.step (hw : w.IsAbove base) (h : w.step limits c = .ok (some w') c') :
    w'.IsAbove base := by
  unfold Walk.step at h
  obtain ⟨items, d, -, hstep⟩ := Reader.bind_eq_ok.1 h
  injection hstep with hnext
  split_ifs at hnext with hzero
  · exact isAbove_of_settle hw hnext
  · cases hnext
    exact hw.descend items

theorem IsAbove.reaches (hw : w.IsAbove base) (h : w.Reaches limits c w' c') :
    w'.IsAbove base := by
  induction h with
  | refl => exact hw
  | step _ hstep ih => exact ih.step hstep

end Walk

namespace Reader

/-! ## Walks and recursion -/

/-- A value is read as by recursion: a header, and then as many values as it announces, one level
deeper.  The walk comes to the same outcome at the same cursor, and the bytes of the value are those
that the recursion passes.  The walk keeps the level of the next item although it only keeps what
each open container owes. -/
theorem value_eq_spanned_descent (limits : Limits) :
    (∀ level, descent limits level =
      header limits level >>= descentItems limits (level + 1)) ∧
    (∀ level, descentItems limits level 0 = pure ()) ∧
    (∀ level n, descentItems limits level (n + 1) =
      descent limits level >>= fun _ => descentItems limits level n) ∧
    (∀ level, (Walk.start level).run limits = descent limits level ∧
      value limits level = spanned (descent limits level)) ∧
    ∀ level c w d, (Walk.start level).Reaches limits c w d →
      w.level = level + w.pending.length := by
  refine ⟨descent_eq limits, descentItems_zero limits, descentItems_succ limits, fun level => ?_,
    fun level c w d h => (Walk.isAbove_start level).reaches h⟩
  have hrun := Walk.run_start limits level
  refine ⟨hrun, ?_⟩
  unfold value
  rw [hrun]

/-- An array of one number is walked over at the level of the value and then one level deeper. -/
theorem value_eq_spanned_descent_array :
    let c := Cursor.start [0x91, 0x01]
    (Walk.start 1).Reaches {} c ((Walk.start 1).descend 1) (c.advance 1) ∧
      ((Walk.start 1).descend 1).level = 1 + [1].length := by
  intro c
  have hstep : (Walk.start 1).step {} c = .ok (some ((Walk.start 1).descend 1)) (c.advance 1) := by
    cbv
  have hreaches := Walk.Reaches.step .refl hstep
  exact ⟨hreaches, (value_eq_spanned_descent {}).2.2.2.2 1 c _ _ hreaches⟩

end Reader

/-! ## A value wherever it stands -/

section

variable {limits : Limits} {level : Nat} {v span post : Bytes} {c d : Cursor}

/-- A value is read whatever stands behind it. -/
theorem IsValue.value_eq_ok (hv : IsValue limits.maxEntries (limits.maxDepth - level) v)
    (hc : c.rest = v ++ post) : Reader.value limits level c = .ok v (c.advance v.length) :=
  (Reader.reads_value limits level c).run hc ⟨rfl, hv⟩

/-- What is read stands in front of the cursor and is a value of the grammar. -/
theorem isValue_of_span (h : Reader.value limits level c = .ok span d) :
    c.rest = span ++ d.rest ∧ IsValue limits.maxEntries (limits.maxDepth - level) span := by
  obtain ⟨b, hrest, -, rfl, hv⟩ := (Reader.reads_value limits level c span d).1 h
  exact ⟨hrest, hv⟩

/-- A value that is read to its end is one of the grammar. -/
theorem isValue_of_value_eq_ok (h : Reader.value limits level (Cursor.start v) = .ok span c)
    (hc : c.rest = []) : IsValue limits.maxEntries (limits.maxDepth - level) v := by
  obtain ⟨hrest, hv⟩ := isValue_of_span h
  rw [hc, List.append_nil] at hrest
  rwa [show v = span from hrest]

end

namespace Reader

/-- Whether the reader of values, on the input `v` alone, reads all of it as one value. -/
def Spans (limits : Limits) (level : Nat) (v : Bytes) : Prop :=
  ∃ span d, value limits level (Cursor.start v) = .ok span d ∧ d.rest = []

theorem spans_iff {limits : Limits} {level : Nat} {v : Bytes} :
    Spans limits level v ↔ IsValue limits.maxEntries (limits.maxDepth - level) v := by
  constructor
  · rintro ⟨span, d, h, hd⟩
    exact isValue_of_value_eq_ok h hd
  · intro hv
    exact ⟨v, _, hv.value_eq_ok (List.append_nil v).symm, List.drop_length⟩

/-- Values are self-delimiting: what is read as one value by itself is read as that value between
any other bytes, what is read as a value between other bytes is one by itself, and no value goes on
behind another one. -/
theorem value_selfDelimiting (limits : Limits) (level : Nat) (v : Bytes) :
    (Spans limits level v → ∀ pre post : Bytes,
      let c := Cursor.start (pre ++ v ++ post)
      value limits level (c.advance pre.length) = .ok v (c.advance (pre.length + v.length))) ∧
    (∀ c d, value limits level c = .ok v d → Spans limits level v) ∧
    (Spans limits level v → ∀ p, p <+: v → Spans limits level p → p = v) := by
  refine ⟨fun h pre post => ?_, fun c d h => spans_iff.2 (isValue_of_span h).2,
    fun h p hp hps => ?_⟩
  · intro c
    have hrest : (c.advance pre.length).rest = v ++ post :=
      rest_advance_of_append (List.append_assoc pre v post)
    rw [(spans_iff.1 h).value_eq_ok hrest, Cursor.advance_advance]
  · obtain ⟨rest, rfl⟩ := hp
    have heq : p ++ rest = p ++ rest ++ [] := (List.append_nil _).symm
    exact ((spans_iff.1 hps).unique (spans_iff.1 h) heq).1

/-- An array is read between other bytes, and neither its header nor its header and first item are
values. -/
theorem value_selfDelimiting_array :
    let v : Bytes := [0x92, 0x01, 0xc0]
    let c := Cursor.start ([0x93] ++ v ++ [0xff, 0xff])
    value {} 1 (c.advance 1) = .ok v (c.advance 4) ∧
      ¬ Spans {} 1 [0x92] ∧ ¬ Spans {} 1 [0x92, 0x01] := by
  intro v c
  have hitems : AreValues 65536 14 2 [0x01, 0xc0] :=
    .cons (@IsValue.fixed _ _ 0x01 [] (by decide))
      (.cons (@IsValue.fixed _ _ 0xc0 [] (by decide)) .nil)
  have hv : Spans {} 1 v := spans_iff.2
    (@IsValue.array _ _ 0x92 (.inTag 2) [] _ 2 (by decide) ⟨rfl, rfl⟩ (by decide) hitems)
  obtain ⟨hanywhere, -, hends⟩ := value_selfDelimiting {} 1 v
  exact ⟨hanywhere hv [0x93] [0xff, 0xff],
    fun h => absurd (hends hv _ (by decide) h) (by decide),
    fun h => absurd (hends hv _ (by decide) h) (by decide)⟩

end Reader

end AtomicGroups.Wire
