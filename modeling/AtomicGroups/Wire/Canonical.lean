import AtomicGroups.Bytes

/-!
# Canonical headers

Of the headers that the format allows for a value, the canonical one is the shortest, so that a
value has one canonical form.  A count beyond 32 bits has no header; its low 32 bits are written.
-/

namespace AtomicGroups.Wire.Canonical

/-- The header of a container: the count goes into the type byte `short` when it is below sixteen,
and behind one of the type bytes `wide` and `wide + 1` otherwise. -/
def containerHeader (short wide : UInt8) (n : Nat) : Bytes :=
  if n < 16 then [short + UInt8.ofNat n]
  else if n < 0x10000 then wide :: Bytes.ofNat 2 n
  else (wide + 1) :: Bytes.ofNat 4 n

/-- The header of a map of `n` entries. -/
def mapHeader (n : Nat) : Bytes := containerHeader 0x80 0xde n

/-- The header of an array of `n` items. -/
def arrayHeader (n : Nat) : Bytes := containerHeader 0x90 0xdc n

/-- The header of a text or binary whose count does not go into the type byte: `wide` and the two
type bytes after it stand for counts of one, two and four bytes. -/
def blobHeader (wide : UInt8) (n : Nat) : Bytes :=
  if n < 0x100 then wide :: Bytes.ofNat 1 n
  else if n < 0x10000 then (wide + 1) :: Bytes.ofNat 2 n
  else (wide + 2) :: Bytes.ofNat 4 n

/-- The header of a text of `n` bytes. -/
def stringHeader (n : Nat) : Bytes :=
  if n < 32 then [0xa0 + UInt8.ofNat n] else blobHeader 0xd9 n

def string (s : String) : Bytes :=
  let text := Bytes.ofString s
  stringHeader text.length ++ text

def binary (payload : Bytes) : Bytes := blobHeader 0xc4 payload.length ++ payload

/-- A number below `2 ^ 64`. -/
def unsigned (n : Nat) : Bytes :=
  if n < 0x80 then [UInt8.ofNat n]
  else if n < 0x100 then 0xcc :: Bytes.ofNat 1 n
  else if n < 0x10000 then 0xcd :: Bytes.ofNat 2 n
  else if n < 0x100000000 then 0xce :: Bytes.ofNat 4 n
  else 0xcf :: Bytes.ofNat 8 n

end AtomicGroups.Wire.Canonical
