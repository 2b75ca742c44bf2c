import AtomicGroups.Wire.Walk

/-!
# Reading a value by recursion

`descend` reads a header and then, one after the other, the items that it announces, each by the
same rule one level deeper.  It is the plain way to say where a value ends, to which a `Walk` is
compared.
-/

namespace AtomicGroups.Wire

mutual

/-- Reads one value inside `level` open containers. -/
def descend (limits : Limits) (level : Nat) (c : Cursor) :
    { o : Outcome Unit // c.Leads o.cursor } :=
  match h : Reader.header limits level c with
  | .ok items c' =>
    have hc : c.Leads c' := by
      have := Reader.forward_header limits level c
      rwa [h] at this
    have : c'.remaining < c.remaining := Reader.consuming_header limits level c items c' h
    let ⟨o, ho⟩ := descendItems limits (level + 1) items c'
    ⟨o, hc.trans ho⟩
  | .error e c' =>
    ⟨.error e c', by
      have := Reader.forward_header limits level c
      rwa [h] at this⟩
termination_by (c.remaining, 0)

/-- Reads a number of values in a row. -/
def descendItems (limits : Limits) (level n : Nat) (c : Cursor) :
    { o : Outcome Unit // c.Leads o.cursor } :=
  match n with
  | 0 => ⟨.ok () c, .refl c⟩
  | n + 1 =>
    match descend limits level c with
    | ⟨.ok () c', hc⟩ =>
      have : c'.remaining ≤ c.remaining := Cursor.Leads.remaining_le hc
      let ⟨o, ho⟩ := descendItems limits level n c'
      ⟨o, Cursor.Leads.trans hc ho⟩
    | ⟨.error e c', hc⟩ => ⟨.error e c', hc⟩
termination_by (c.remaining, n + 1)
decreasing_by
  · exact Prod.Lex.right _ (Nat.succ_pos _)
  · rcases Nat.lt_or_eq_of_le this with hlt | heq
    · exact Prod.Lex.left _ _ hlt
    · rw [heq]
      exact Prod.Lex.right _ (Nat.lt_succ_self _)

end

end AtomicGroups.Wire
