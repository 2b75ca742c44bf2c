import AtomicGroups.Json.Lexer

/-!
# Parsing JSON

Tokens are put together into a value by a machine that takes one token at a time.  The containers
that are open around the next value are kept in a list, so that nesting costs no stack.
-/

namespace AtomicGroups.Json

/-- A container that waits for a value; its content so far is kept in reverse. -/
inductive Frame
  /-- An array that waits for an item. -/
  | array (items : List Json)
  /-- An object that waits for the value of a key. -/
  | object (members : List (Text × Json)) (key : Text)

/-- What the machine waits for; `outer` are the containers around it, the innermost first. -/
inductive State
  | value (outer : List Frame)
  /-- The first item of an array, or its end. -/
  | firstItem (outer : List Frame)
  /-- The first key of an object, or its end. -/
  | firstKey (outer : List Frame)
  | key (members : List (Text × Json)) (outer : List Frame)
  /-- The colon behind a key. -/
  | colon (members : List (Text × Json)) (key : Text) (outer : List Frame)
  /-- A comma or the end of an array. -/
  | nextItem (items : List Json) (outer : List Frame)
  /-- A comma or the end of an object. -/
  | nextMember (members : List (Text × Json)) (outer : List Frame)
  /-- Nothing: the value is complete. -/
  | done (value : Json)

namespace State

/-- Gives a complete value to the container that waits for it. -/
def complete (v : Json) : List Frame → State
  | [] => done v
  | .array items :: outer => nextItem (v :: items) outer
  | .object members k :: outer => nextMember ((k, v) :: members) outer

/-- Takes the first token of a value. -/
def begin (outer : List Frame) : Token → Option State
  | .atom v => some (complete v outer)
  | .openArray => some (firstItem outer)
  | .openObject => some (firstKey outer)
  | _ => none

def step : State → Token → Option State
  | value outer, t => begin outer t
  | firstItem outer, .closeArray => some (complete (.array []) outer)
  | firstItem outer, t => begin (.array [] :: outer) t
  | firstKey outer, .closeObject => some (complete (.object []) outer)
  | firstKey outer, .atom (.string k) => some (colon [] k outer)
  | key members outer, .atom (.string k) => some (colon members k outer)
  | colon members k outer, .colon => some (value (.object members k :: outer))
  | nextItem items outer, .comma => some (value (.array items :: outer))
  | nextItem items outer, .closeArray => some (complete (.array items.reverse) outer)
  | nextMember members outer, .comma => some (key members outer)
  | nextMember members outer, .closeObject => some (complete (.object members.reverse) outer)
  | _, _ => none

end State

/-- The value that a list of tokens spells. -/
def ofTokens? (tokens : List Token) : Option Json := do
  match ← tokens.foldlM State.step (.value []) with
  | .done v => some v
  | _ => none

def parse? (text : String) : Option Json := (Token.ofChars? text.toList).bind ofTokens?

end AtomicGroups.Json
