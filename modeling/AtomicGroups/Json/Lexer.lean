import AtomicGroups.Json.Value

/-!
# JSON tokens

The characters of a JSON text are grouped into tokens by a machine that takes one character at a
time.  A literal without quotes is a longest stretch of characters that are neither white space nor
marks; what it means is decided when it ends.
-/

namespace AtomicGroups.Json

/-- A token: a mark, or a value that is no container. -/
inductive Token
  | openArray
  | closeArray
  | openObject
  | closeObject
  | comma
  | colon
  | atom (value : Json)

namespace Token

/-- The token that a character is by itself. -/
def ofMark? : Char → Option Token
  | '[' => some openArray
  | ']' => some closeArray
  | '\x7b' => some openObject
  | '\x7d' => some closeObject
  | ',' => some comma
  | ':' => some colon
  | _ => none

def isSpace (c : Char) : Bool := c = ' ' || c = '\n' || c = '\t' || c = '\x0d'

/-! ## Literals -/

/-- What follows one or more digits. -/
def afterDigits? (cs : List Char) : Option (List Char) :=
  if cs.takeWhile Char.isDigit = [] then none else some (cs.dropWhile Char.isDigit)

/-- What follows a fraction, which may be missing. -/
def afterFraction? : List Char → Option (List Char)
  | '.' :: cs => afterDigits? cs
  | cs => some cs

/-- What follows an exponent, which may be missing. -/
def afterExponent? : List Char → Option (List Char)
  | e :: cs =>
    if e = 'e' || e = 'E' then
      match cs with
      | sign :: ds => if sign = '+' || sign = '-' then afterDigits? ds else afterDigits? cs
      | [] => none
    else some (e :: cs)
  | [] => some []

/-- The number without sign that a literal is: digits without a leading zero, then perhaps a
fraction and an exponent. -/
def unsigned? (cs : List Char) : Option Number := do
  let digits := cs.takeWhile Char.isDigit
  let rest := cs.dropWhile Char.isDigit
  if digits = [] ∨ (digits.head? = some '0' ∧ digits ≠ ['0']) then none
  else if rest = [] then some (.natural digits)
  else
    let rest ← afterFraction? rest
    let rest ← afterExponent? rest
    if rest = [] then some .other else none

def number? : List Char → Option Number
  | '-' :: cs => (unsigned? cs).map fun _ => .other
  | cs => unsigned? cs

/-- The value that a literal without quotes is. -/
def literal? (cs : List Char) : Option Json :=
  if cs = "null".toList then some .null
  else if cs = "true".toList then some (.bool true)
  else if cs = "false".toList then some (.bool false)
  else (number? cs).map .number

/-! ## Strings -/

/-- The unit that a character stands for behind a backslash. -/
def escape? : Char → Option UInt16
  | '"' => some 0x22
  | '\\' => some 0x5c
  | '/' => some 0x2f
  | 'b' => some 0x08
  | 'f' => some 0x0c
  | 'n' => some 0x0a
  | 'r' => some 0x0d
  | 't' => some 0x09
  | _ => none

/-- The value of a hexadecimal digit, of either case. -/
def hexValue? (c : Char) : Option Nat :=
  if c.isDigit then some (c.toNat - '0'.toNat)
  else if 'a' ≤ c ∧ c ≤ 'f' then some (c.toNat - 'a'.toNat + 10)
  else if 'A' ≤ c ∧ c ≤ 'F' then some (c.toNat - 'A'.toNat + 10)
  else none

/-! ## The machine -/

/-- Where the machine stands; what it has gathered is kept in reverse. -/
inductive Mode
  /-- Between tokens. -/
  | gap
  /-- In a literal without quotes. -/
  | bare (chars : List Char)
  /-- In a string. -/
  | quoted (units : List UInt16)
  /-- In a string, behind a backslash. -/
  | escaped (units : List UInt16)
  /-- In a string, behind the given number of digits of a unit, which have the given value. -/
  | unit (units : List UInt16) (digits value : Nat)

/-- Ends a literal without quotes, if there is one. -/
def flush (mode : Mode) (done : List Token) : Option (List Token) :=
  match mode with
  | .gap => some done
  | .bare chars => (literal? chars.reverse).map fun value => .atom value :: done
  | .quoted _ | .escaped _ | .unit _ _ _ => none

/-- Takes one character; the tokens are kept in reverse. -/
def step (state : Mode × List Token) (c : Char) : Option (Mode × List Token) :=
  let (mode, done) := state
  match mode with
  | .quoted units =>
    if c = '"' then some (.gap, .atom (.string ⟨units.reverse⟩) :: done)
    else if c = '\\' then some (.escaped units, done)
    else if c < ' ' then none
    else some (.quoted ((Text.charUnits c).reverse ++ units), done)
  | .escaped units =>
    if c = 'u' then some (.unit units 0 0, done)
    else (escape? c).map fun u => (.quoted (u :: units), done)
  | .unit units digits value =>
    (hexValue? c).map fun d =>
      let value := 16 * value + d
      if digits = 3 then (.quoted (UInt16.ofNat value :: units), done)
      else (.unit units (digits + 1) value, done)
  | .gap | .bare _ =>
    if isSpace c then (flush mode done).map (.gap, ·)
    else if c = '"' then (flush mode done).map (.quoted [], ·)
    else
      match ofMark? c with
      | some mark => (flush mode done).map (.gap, mark :: ·)
      | none =>
        match mode with
        | .bare chars => some (.bare (c :: chars), done)
        | _ => some (.bare [c], done)

def ofChars? (cs : List Char) : Option (List Token) := do
  let (mode, done) ← cs.foldlM step (.gap, [])
  return (← flush mode done).reverse

end Token

end AtomicGroups.Json
