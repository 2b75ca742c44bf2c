import AtomicGroups.Record.Encoding
import AtomicGroups.Wire.Entries

/-!
# Decoding records

A record may be written in more ways than the canonical one: with its entries in any order and with
headers of any width.  `Record.decode` reads them all, within limits, and refuses everything else.
-/

namespace AtomicGroups

open Wire

/-- Reads one entry behind those read so far. -/
def readEntry (limits : Limits) (before : FieldMap) : Reader FieldMap := do
  let key ← Reader.key
  let start ← Reader.offset
  let value : Field := ⟨← Reader.value limits 1⟩
  if key ∈ before then throw (.duplicateKey key)
  if key = groupKey ∧ value.digest? = none then throw (.invalidGroupField start value.encoded)
  return before.insert key value

/-- Reads a number of entries behind those read so far. -/
def readEntries (limits : Limits) : (n : Nat) → (before : FieldMap) → Reader FieldMap
  | 0, before => return before
  | n + 1, before => do readEntries limits n (← readEntry limits before)

/-- Reads a record that takes up the whole input. -/
def readRecord (limits : Limits) : Reader Record := do
  let length ← Reader.mapHeader limits
  let entries ← readEntries limits length ∅
  Reader.finish
  return Record.ofEntries entries

/-- The record that a byte string encodes. -/
def Record.decode (limits : Limits) (bs : Bytes) : Except DecodeError Record :=
  (readRecord limits).parse bs

end AtomicGroups
