/-!
# Type bytes

The first byte of an encoded value says what kind of value it is and where its length is found.
`Format.ofByte` is the table of MessagePack: every byte but 0xc1 starts a value.
-/

namespace AtomicGroups.Wire

/-- Where the count of a value is found. -/
inductive Count
  /-- In the type byte itself. -/
  | inTag (n : Nat)
  /-- In the next `width` bytes, most significant first. -/
  | wide (width : Nat)
deriving DecidableEq

/-- What a type byte announces. -/
inductive Format
  /-- A value of `payload` bytes beside the type byte. -/
  | fixed (payload : Nat)
  /-- A text; the count is that of its bytes. -/
  | string (count : Count)
  /-- A binary; the count is that of its bytes. -/
  | binary (count : Count)
  /-- An extension: one byte for its type, and as many bytes as the count says. -/
  | extension (count : Count)
  /-- An array; the count is that of its items. -/
  | array (count : Count)
  /-- A map; the count is that of its entries, each a key and a value. -/
  | map (count : Count)
  /-- The byte that starts no value. -/
  | reserved
deriving DecidableEq

/-- What each of the 256 type bytes announces. -/
def Format.ofByte (b : UInt8) : Format :=
  let t := b.toNat
  if t < 0x80 then .fixed 0
  else if t < 0x90 then .map (.inTag (t - 0x80))
  else if t < 0xa0 then .array (.inTag (t - 0x90))
  else if t < 0xc0 then .string (.inTag (t - 0xa0))
  else if t = 0xc1 then .reserved
  else if t < 0xc4 then .fixed 0
  else if t < 0xc7 then .binary (.wide (1 <<< (t - 0xc4)))
  else if t < 0xca then .extension (.wide (1 <<< (t - 0xc7)))
  else if t < 0xcc then .fixed (4 <<< (t - 0xca))
  else if t < 0xd0 then .fixed (1 <<< (t - 0xcc))
  else if t < 0xd4 then .fixed (1 <<< (t - 0xd0))
  else if t < 0xd9 then .fixed (1 + (1 <<< (t - 0xd4)))
  else if t < 0xdc then .string (.wide (1 <<< (t - 0xd9)))
  else if t < 0xde then .array (.wide (2 <<< (t - 0xdc)))
  else if t < 0xe0 then .map (.wide (2 <<< (t - 0xde)))
  else .fixed 0

end AtomicGroups.Wire
