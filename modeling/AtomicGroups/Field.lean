import AtomicGroups.Digest
import AtomicGroups.Wire.Canonical
import AtomicGroups.Wire.Format

/-!
# Field values

The value of a field is kept as the bytes it was read from, so that what is not understood passes
through unchanged.  Three builders give canonical values (`Field.unsigned`, `Field.string`,
`Field.binary`); of the values read, only binaries are looked into (`Field.payload?`).
-/

namespace AtomicGroups

/-- The value of a field, as encoded. -/
structure Field where
  encoded : Bytes
deriving DecidableEq, Inhabited

namespace Field

/-- A number below `2 ^ 64`. -/
def unsigned (n : Nat) : Field := ⟨Wire.Canonical.unsigned n⟩

def string (s : String) : Field := ⟨Wire.Canonical.string s⟩

def binary (payload : Bytes) : Field := ⟨Wire.Canonical.binary payload⟩

/-- The payload of a value that is a binary, whatever the width of its header. -/
def payload? (f : Field) : Option Bytes :=
  match f.encoded with
  | [] => none
  | tag :: rest =>
    match Wire.Format.ofByte tag with
    | .binary (.wide width) =>
      let payload := rest.drop width
      if width ≤ rest.length ∧ payload.length = Bytes.toNat (rest.take width) then some payload
      else none
    | _ => none

/-- The digest that a value is, if it is a binary of 32 bytes. -/
def digest? (f : Field) : Option Digest := f.payload?.bind Digest.ofBytes?

/-- A value named as such, for people to read. -/
def describe (f : Field) : String := s!"FieldValue(0x{f.encoded.hex})"

end Field

end AtomicGroups
