import Mathlib
import AtomicGroups.Json.Parser

/-!
# Texts that spell values

How a JSON text is put together from the texts of its parts.  A text is cut into tokens and these
are put together, each by a machine that takes one after the other; what a machine makes of a part
does not depend on what it took before (`Token.Lexes`, `State.Builds`).  So arrays and objects are
spelled by what spells their items (`spells_array`, `spells_object`), and what spells a value is
parsed as it (`Spells.parse?_eq_some`).
-/

namespace AtomicGroups.Json

/-! ## Tokens -/

namespace Token

variable {cs cs' : List Char} {tokens tokens' done done' : List Token} {c : Char} {t : Token}
  {mode : Mode}

/-- `Lexes cs tokens` says that the characters `cs`, if they start between tokens, are cut into
these tokens, the last of which may still be under way. -/
def Lexes (cs : List Char) (tokens : List Token) : Prop :=
  ∀ done, ∃ mode done', cs.foldlM step (.gap, done) = some (mode, done') ∧
    flush mode done' = some (tokens.reverse ++ done)

/-- The same, if none is under way at the end. -/
def Closes (cs : List Char) (tokens : List Token) : Prop :=
  ∀ done, cs.foldlM step (.gap, done) = some (.gap, tokens.reverse ++ done)

theorem Closes.lexes (h : Closes cs tokens) : Lexes cs tokens :=
  fun done => ⟨.gap, _, h done, rfl⟩

theorem closes_nil : Closes [] [] := fun _ => rfl

theorem of_ofMark?_eq_some (hc : ofMark? c = some t) :
    isSpace c = false ∧ c ≠ '"' ∧ c.isDigit = false := by
  unfold ofMark? at hc
  split at hc <;> cases hc <;> decide

/-- A mark ends the literal in front of it. -/
theorem step_of_mark (h : flush mode done = some done') (hc : ofMark? c = some t) :
    step (mode, done) c = some (.gap, t :: done') := by
  obtain ⟨hspace, hquote, -⟩ := of_ofMark?_eq_some hc
  cases mode with
  | gap | bare chars =>
    simp only [step, hspace, if_neg hquote, hc, h]
    rfl
  | quoted | escaped | unit => cases h

theorem Lexes.mark (h : Lexes cs tokens) (hc : ofMark? c = some t) :
    Closes (cs ++ [c]) (tokens ++ [t]) := by
  intro done
  obtain ⟨mode, done', hfold, hflush⟩ := h done
  rw [List.foldlM_append, hfold]
  change step (mode, done') c >>= pure = _
  rw [step_of_mark hflush hc, List.reverse_append]
  rfl

theorem Closes.append_lexes (h : Closes cs tokens) (h' : Lexes cs' tokens') :
    Lexes (cs ++ cs') (tokens ++ tokens') := by
  intro done
  rw [List.foldlM_append, h done, List.reverse_append, List.append_assoc]
  exact h' _

theorem Closes.append (h : Closes cs tokens) (h' : Closes cs' tokens') :
    Closes (cs ++ cs') (tokens ++ tokens') := by
  intro done
  rw [List.foldlM_append, h done, List.reverse_append, List.append_assoc]
  exact h' _

theorem Lexes.ofChars?_eq_some (h : Lexes cs tokens) : ofChars? cs = some tokens := by
  obtain ⟨mode, done', hfold, hflush⟩ := h []
  unfold ofChars?
  rw [hfold]
  change (flush mode done').bind _ = _
  rw [hflush, List.append_nil]
  exact congrArg some (List.reverse_reverse tokens)

/-- Texts between commas are cut into their tokens between commas. -/
theorem lexes_intercalate {texts : List (List Char)} {parts : List (List Token)}
    (h : List.Forall₂ Lexes texts parts) :
    Lexes ([','].intercalate texts) ([comma].intercalate parts) := by
  induction h with
  | nil => exact closes_nil.lexes
  | @cons cs tokens texts parts hfirst hlater ih =>
    cases hlater with
    | nil => simpa using hfirst
    | cons _ _ =>
      rw [List.intercalate_cons_cons, List.intercalate_cons_cons]
      exact (hfirst.mark rfl).append_lexes ih

/-! ### Literals -/

/-- Whether a character stands for itself in a string. -/
def IsPlain (c : Char) : Prop := c ≠ '"' ∧ c ≠ '\\' ∧ ¬ c < ' '

instance : DecidablePred IsPlain :=
  fun c => inferInstanceAs (Decidable (c ≠ '"' ∧ c ≠ '\\' ∧ ¬ c < ' '))

theorem foldlM_step_quoted (h : ∀ c ∈ cs, IsPlain c) (units : List UInt16) :
    cs.foldlM step (.quoted units, done) =
      some (.quoted ((cs.flatMap Text.charUnits).reverse ++ units), done) := by
  induction cs generalizing units with
  | nil => rfl
  | cons c cs ih =>
    obtain ⟨⟨hquote, hescape, hcontrol⟩, hcs⟩ := List.forall_mem_cons.1 h
    have hstep : step (.quoted units, done) c =
        some (.quoted ((Text.charUnits c).reverse ++ units), done) := by
      simp only [step, if_neg hquote, if_neg hescape, if_neg hcontrol]
    rw [List.foldlM_cons, hstep, List.flatMap_cons, List.reverse_append, List.append_assoc]
    exact ih hcs _

/-- A string without escapes. -/
theorem closes_quoted {s : String} (h : ∀ c ∈ s.toList, IsPlain c) :
    Closes ('"' :: (s.toList ++ ['"'])) [.atom (.string (.ofString s))] := by
  intro done
  rw [List.foldlM_cons]
  change (s.toList ++ ['"']).foldlM step (.quoted [], done) = _
  rw [List.foldlM_append, foldlM_step_quoted h, List.append_nil]
  change some (Mode.gap, Token.atom (.string ⟨(List.reverse _).reverse⟩) :: done) = _
  rw [List.reverse_reverse]
  rfl

/-- A digit is neither white space nor a mark. -/
theorem step_of_digit (h : c.isDigit = true) :
    step (.gap, done) c = some (.bare [c], done) ∧
      ∀ chars, step (.bare chars, done) c = some (.bare (c :: chars), done) := by
  have hspace : isSpace c = false := by
    rw [Bool.eq_false_iff]
    intro hc
    simp only [isSpace, Bool.or_eq_true, decide_eq_true_eq] at hc
    rcases hc with ((rfl | rfl) | rfl) | rfl <;> exact absurd h (by decide)
  have hquote : c ≠ '"' := by
    rintro rfl
    exact absurd h (by decide)
  have hmark : ofMark? c = none := by
    rw [Option.eq_none_iff_forall_ne_some]
    intro t hc
    exact absurd h (by rw [(of_ofMark?_eq_some hc).2.2]; decide)
  simp [step, hspace, hquote, hmark]

theorem foldlM_step_bare (h : ∀ c ∈ cs, c.isDigit = true) (chars : List Char) :
    cs.foldlM step (.bare chars, done) = some (.bare (cs.reverse ++ chars), done) := by
  induction cs generalizing chars with
  | nil => rfl
  | cons c cs ih =>
    obtain ⟨hc, hcs⟩ := List.forall_mem_cons.1 h
    rw [List.foldlM_cons, (step_of_digit hc).2, List.reverse_cons, List.append_assoc]
    exact ih hcs _

theorem unsigned?_of_digits (hne : cs ≠ []) (h : ∀ c ∈ cs, c.isDigit = true)
    (hzero : cs.head? = some '0' → cs = ['0']) : unsigned? cs = some (.natural cs) := by
  have hdigits : cs.takeWhile Char.isDigit = cs := List.takeWhile_eq_self_iff.2 h
  have hrest : cs.dropWhile Char.isDigit = [] := List.dropWhile_eq_nil_iff.2 h
  have hleading : ¬ (cs = [] ∨ cs.head? = some '0' ∧ cs ≠ ['0']) := by tauto
  unfold unsigned?
  simp only [hdigits, hrest, if_neg hleading, if_true]

/-- A literal that begins with a digit is a number without sign. -/
theorem literal?_of_digit (h : c.isDigit = true) :
    literal? (c :: cs) = (unsigned? (c :: cs)).map .number := by
  have hword {word : List Char} (hword : ∀ d ∈ word.head?, d.isDigit = false) :
      c :: cs ≠ word := by
    rintro rfl
    exact absurd h (by rw [hword c rfl]; decide)
  have hsign : number? (c :: cs) = unsigned? (c :: cs) := by
    unfold number?
    split
    · exact absurd h (by simp_all)
    · rfl
  unfold literal?
  rw [if_neg (hword (by simp)), if_neg (hword (by simp)), if_neg (hword (by simp)), hsign]

/-- The digits of a natural number. -/
theorem lexes_digits (hne : cs ≠ []) (h : ∀ c ∈ cs, c.isDigit = true)
    (hzero : cs.head? = some '0' → cs = ['0']) : Lexes cs [.atom (.number (.natural cs))] := by
  intro done
  obtain ⟨c, digits, rfl⟩ := List.exists_cons_of_ne_nil hne
  obtain ⟨hc, hdigits⟩ := List.forall_mem_cons.1 h
  refine ⟨.bare (digits.reverse ++ [c]), done, ?_, ?_⟩
  · rw [List.foldlM_cons, (step_of_digit hc).1]
    exact foldlM_step_bare hdigits [c]
  · rw [flush, List.reverse_append, List.reverse_reverse]
    change (literal? (c :: digits)).map _ = _
    rw [literal?_of_digit hc, unsigned?_of_digits hne h hzero]
    rfl

end Token

/-! ## Values -/

theorem intercalate_cons {α : Type} (a : α) (first : List α) (later : List (List α)) :
    [a].intercalate (first :: later) = first ++ later.flatMap fun l => a :: l := by
  induction later generalizing first with
  | nil => simp
  | cons second later ih =>
    rw [List.intercalate_cons_cons, ih, List.flatMap_cons]
    simp

namespace State

/-- `Builds tokens j` says that the tokens, wherever a value is waited for, are put together to
`j`. -/
def Builds (tokens : List Token) (j : Json) : Prop :=
  ∀ outer, tokens.foldlM step (.value outer) = some (complete j outer)

variable {tokens : List Token} {parts : List (List Token)} {j : Json} {js : List Json}

theorem builds_atom (j : Json) : Builds [.atom j] j := fun _ => rfl

/-- A first item is not the end of its array. -/
theorem Builds.firstItem (h : Builds tokens j) (outer : List Frame) :
    tokens.foldlM step (.firstItem outer) = some (complete j (.array [] :: outer)) := by
  cases tokens with
  | nil => cases h []
  | cons t later =>
    have hfirst : step (.firstItem outer) t = step (.value (.array [] :: outer)) t := by
      cases t with
      | closeArray => cases h []
      | _ => rfl
    rw [List.foldlM_cons, hfirst, ← List.foldlM_cons]
    exact h _

/-- What is put together from parts behind commas.  Once some values have been gathered, the machine
is in the state `between` of them. -/
theorem foldlM_step_parts {α : Type} {R : List Token → α → Prop} {values : List α}
    (between : List α → State)
    (hpart : ∀ part value gathered, R part value →
      (.comma :: part).foldlM step (between gathered) = some (between (value :: gathered)))
    (h : List.Forall₂ R parts values) (gathered : List α) :
    (parts.flatMap fun part => .comma :: part).foldlM step (between gathered) =
      some (between (values.reverse ++ gathered)) := by
  induction h generalizing gathered with
  | nil => rfl
  | cons hvalue _ ih =>
    rw [List.flatMap_cons, List.foldlM_append, hpart _ _ _ hvalue, List.reverse_cons,
      List.append_assoc]
    exact ih _

theorem builds_array (h : List.Forall₂ Builds parts js) :
    Builds (.openArray :: ([Token.comma].intercalate parts ++ [.closeArray])) (.array js) := by
  intro outer
  rw [List.foldlM_cons]
  change ([Token.comma].intercalate parts ++ [Token.closeArray]).foldlM step (.firstItem outer) = _
  cases h with
  | nil => rfl
  | @cons tokens j parts js hfirst hlater =>
    rw [intercalate_cons, List.append_assoc, List.foldlM_append, hfirst.firstItem outer]
    change (parts.flatMap (fun part => Token.comma :: part) ++ [Token.closeArray]).foldlM step
      (.nextItem [j] outer) = _
    rw [List.foldlM_append, foldlM_step_parts (fun items => .nextItem items outer) _ hlater]
    · change some (complete (.array (js.reverse ++ [j]).reverse) outer) = _
      rw [List.reverse_append, List.reverse_reverse]
      rfl
    · intro part j items hj
      exact hj (.array items :: outer)

/-- `BuildsMember tokens member` says that the tokens are a key, a colon and a value, which are put
together to `member`. -/
def BuildsMember (tokens : List Token) (member : Text × Json) : Prop :=
  ∃ later, tokens = .atom (.string member.1) :: .colon :: later ∧ Builds later member.2

variable {members : List (Text × Json)}

theorem BuildsMember.foldlM_step {member : Text × Json} (h : BuildsMember tokens member)
    (outer : List Frame) : tokens.foldlM step (.key members outer) =
      some (.nextMember (member :: members) outer) := by
  obtain ⟨later, rfl, h⟩ := h
  exact h (.object members member.1 :: outer)

theorem builds_object (h : List.Forall₂ BuildsMember parts members) :
    Builds (.openObject :: ([Token.comma].intercalate parts ++ [.closeObject]))
      (.object members) := by
  intro outer
  rw [List.foldlM_cons]
  change ([Token.comma].intercalate parts ++ [Token.closeObject]).foldlM step (.firstKey outer) = _
  cases h with
  | nil => rfl
  | @cons tokens member parts members hfirst hlater =>
    have hkey : tokens.foldlM step (.firstKey outer) = some (.nextMember [member] outer) := by
      obtain ⟨later, rfl, h⟩ := hfirst
      exact h (.object [] member.1 :: outer)
    rw [intercalate_cons, List.append_assoc, List.foldlM_append, hkey]
    change (parts.flatMap (fun part => Token.comma :: part) ++ [Token.closeObject]).foldlM step
      (.nextMember [member] outer) = _
    rw [List.foldlM_append, foldlM_step_parts (fun members => .nextMember members outer) _ hlater]
    · change some (complete (.object (members.reverse ++ [member]).reverse) outer) = _
      rw [List.reverse_append, List.reverse_reverse]
      rfl
    · intro part member members hmember
      exact hmember.foldlM_step outer

end State

/-! ## Texts -/

/-- `Spells cs j` says that the characters `cs` are the text of the value `j`. -/
def Spells (cs : List Char) (j : Json) : Prop :=
  ∃ tokens, Token.Lexes cs tokens ∧ State.Builds tokens j

/-- The text of a member of an object, whose key needs no escapes. -/
def SpellsMember (cs : List Char) (member : Text × Json) : Prop :=
  ∃ key text, cs = '"' :: (key.toList ++ ['"']) ++ ':' :: text ∧
    (∀ c ∈ key.toList, Token.IsPlain c) ∧ member.1 = .ofString key ∧ Spells text member.2

variable {cs : List Char} {texts : List (List Char)} {j : Json} {js : List Json}
  {members : List (Text × Json)}

theorem Spells.parse?_eq_some {text : String} (h : Spells text.toList j) :
    parse? text = some j := by
  obtain ⟨tokens, hlexes, hbuilds⟩ := h
  unfold parse? ofTokens?
  rw [hlexes.ofChars?_eq_some, Option.bind_some, hbuilds []]
  rfl

theorem spells_digits (hne : cs ≠ []) (h : ∀ c ∈ cs, c.isDigit = true)
    (hzero : cs.head? = some '0' → cs = ['0']) : Spells cs (.number (.natural cs)) :=
  ⟨_, Token.lexes_digits hne h hzero, State.builds_atom _⟩

/-- What can be done with each text can be done with all of them. -/
theorem exists_forall₂ {α β γ : Type} {R : α → β → Prop} {S : β → γ → Prop} {as : List α}
    {cs : List γ} (h : List.Forall₂ (fun a c => ∃ b, R a b ∧ S b c) as cs) :
    ∃ bs, List.Forall₂ R as bs ∧ List.Forall₂ S bs cs := by
  induction h with
  | nil => exact ⟨[], .nil, .nil⟩
  | cons hfirst _ ih =>
    obtain ⟨b, hR, hS⟩ := hfirst
    obtain ⟨bs, hRs, hSs⟩ := ih
    exact ⟨b :: bs, .cons hR hRs, .cons hS hSs⟩

theorem spells_array (h : List.Forall₂ Spells texts js) :
    Spells ('[' :: ([','].intercalate texts ++ [']'])) (.array js) := by
  obtain ⟨parts, hlexes, hbuilds⟩ := exists_forall₂ h
  have hopen : Token.Closes ['['] [.openArray] := Token.closes_nil.lexes.mark rfl
  exact ⟨_, (hopen.append ((Token.lexes_intercalate hlexes).mark rfl)).lexes,
    State.builds_array hbuilds⟩

theorem SpellsMember.exists_tokens {member : Text × Json} (h : SpellsMember cs member) :
    ∃ tokens, Token.Lexes cs tokens ∧ State.BuildsMember tokens member := by
  obtain ⟨key, text, rfl, hplain, hkey, tokens, hlexes, hbuilds⟩ := h
  have hcolon : Token.Closes [':'] [.colon] := Token.closes_nil.lexes.mark rfl
  refine ⟨_, (Token.closes_quoted hplain).append_lexes (hcolon.append_lexes hlexes), tokens, ?_,
    hbuilds⟩
  rw [hkey]
  rfl

theorem spells_object (h : List.Forall₂ SpellsMember texts members) :
    Spells ('\x7b' :: ([','].intercalate texts ++ ['\x7d'])) (.object members) := by
  obtain ⟨parts, hlexes, hbuilds⟩ :=
    exists_forall₂ (h.imp fun _ _ hmember => hmember.exists_tokens)
  have hopen : Token.Closes ['\x7b'] [.openObject] := Token.closes_nil.lexes.mark rfl
  exact ⟨_, (hopen.append ((Token.lexes_intercalate hlexes).mark rfl)).lexes,
    State.builds_object hbuilds⟩

end AtomicGroups.Json
