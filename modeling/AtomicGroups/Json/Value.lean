/-!
# JSON values

The text of a JSON string is a sequence of UTF-16 units, since its escapes can spell units that are
no character.  Where a text is to be understood it has to be well formed (`Json.Text.isWellFormed`).
-/

namespace AtomicGroups

namespace Json

/-- The text of a JSON string, in UTF-16 units. -/
structure Text where
  units : List UInt16
deriving DecidableEq

/-- A number.  It is not evaluated before it is known how large it may be. -/
inductive Number
  /-- A natural number, written with these decimal digits only. -/
  | natural (digits : List Char)
  /-- A number with a sign, a fraction or an exponent. -/
  | other
deriving DecidableEq

namespace Text

/-- The UTF-16 units of a character. -/
def charUnits (c : Char) : List UInt16 :=
  if c.toNat < 0x10000 then [UInt16.ofNat c.toNat]
  else
    let n := c.toNat - 0x10000
    [UInt16.ofNat (0xd800 + n / 0x400), UInt16.ofNat (0xdc00 + n % 0x400)]

def ofString (s : String) : Text := ⟨s.toList.flatMap charUnits⟩

/-- Whether a unit is the first of a pair. -/
def isHigh (u : UInt16) : Bool := 0xd800 ≤ u ∧ u < 0xdc00

/-- Whether a unit is the second of a pair. -/
def isLow (u : UInt16) : Bool := 0xdc00 ≤ u ∧ u < 0xe000

/-- Whether every unit that belongs to a pair stands in one. -/
def paired : List UInt16 → Bool
  | [] => true
  | [u] => !isHigh u && !isLow u
  | u :: v :: rest =>
    if isHigh u then isLow v && paired rest else !isLow u && paired (v :: rest)

/-- Whether a text is the text of a string of characters. -/
def isWellFormed (t : Text) : Bool := paired t.units

end Text

end Json

inductive Json
  | null
  | bool (b : Bool)
  | number (n : Json.Number)
  | string (t : Json.Text)
  | array (items : List Json)
  | object (members : List (Json.Text × Json))

end AtomicGroups
