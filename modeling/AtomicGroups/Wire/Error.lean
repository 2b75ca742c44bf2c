import AtomicGroups.Bytes

/-!
# Why bytes are no record

Each cause names the byte offset it was found at, counted from the start of the record.
-/

namespace AtomicGroups

/-- The causes for which a byte string is refused as a record. -/
inductive DecodeError
  /-- The input ends `needed` bytes before the item that starts at `offset` does. -/
  | endOfInput (offset needed : Nat)
  /-- The first byte announces no map. -/
  | notAMap (found : UInt8)
  /-- The byte where a key should start announces no text. -/
  | nonStringKey (offset : Nat) (found : UInt8)
  /-- The key at `offset` is not UTF-8. -/
  | invalidKey (offset : Nat)
  /-- Two entries have the same key. -/
  | duplicateKey (key : String)
  /-- The byte that the format leaves unassigned. -/
  | reservedType (offset : Nat) (found : UInt8)
  /-- A container is opened inside `max` open ones. -/
  | depthLimitExceeded (offset max : Nat)
  /-- A container announces more than `max` entries. -/
  | containerTooLarge (offset length max : Nat)
  /-- The value of the group entry is no binary of 32 bytes. -/
  | invalidGroupField (offset : Nat) (value : Bytes)
  /-- Bytes follow the record. -/
  | trailingBytes (offset remaining : Nat)
deriving DecidableEq

namespace DecodeError

/-- A type byte, as two hexadecimal digits. -/
private def typeByte (b : UInt8) : String := "0x" ++ Bytes.hex [b]

/-- The text that an error is reported with. -/
def message : DecodeError → String
  | endOfInput offset needed =>
    s!"Unexpected end of input at offset {offset}: needed {needed} more bytes"
  | notAMap found => s!"Record is not a map: found type byte {typeByte found} at offset 0"
  | nonStringKey offset found =>
    s!"Non-string map key at offset {offset}: type byte {typeByte found}"
  | invalidKey offset => s!"Map key at offset {offset} is not valid UTF-8"
  | duplicateKey key => s!"Duplicate field key: {key}"
  | reservedType offset found => s!"Reserved type byte {typeByte found} at offset {offset}"
  | depthLimitExceeded offset max => s!"Nesting depth exceeds limit {max} at offset {offset}"
  | containerTooLarge offset length max =>
    s!"Container at offset {offset} claims {length} entries, limit is {max}"
  | invalidGroupField offset value =>
    s!"Invalid group field at offset {offset}: expected 32-byte binary, got 0x{Bytes.hex value}"
  | trailingBytes offset remaining =>
    s!"Trailing bytes after record: {remaining} bytes at offset {offset}"

end DecodeError

end AtomicGroups
