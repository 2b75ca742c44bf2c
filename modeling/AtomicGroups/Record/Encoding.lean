import AtomicGroups.Record.Basic
import AtomicGroups.Sha512.Hash

/-!
# Encoding records

A record is written as one map in canonical form: the shortest header, then its entries in the order
of their keys, each key in canonical form and each value as it was.  The digest of a record is that
of its encoding without the group, so that stamping a group on a record keeps its digest.
-/

namespace AtomicGroups

/-- An entry, as encoded: the key and the value. -/
def encodeEntry (entry : String × Field) : Bytes :=
  Wire.Canonical.string entry.1 ++ entry.2.encoded

/-- A map of entries, as encoded. -/
def encodeEntries (es : FieldMap) : Bytes :=
  Wire.Canonical.mapHeader es.size ++ es.toList.flatMap encodeEntry

namespace Record

/-- The canonical encoding of a record. -/
def encode (r : Record) : Bytes := encodeEntries r.entries

/-- The tag in front of a record that is hashed. -/
def domain : Bytes := Bytes.ofString "TX"

/-- The bytes whose hash is the digest of a record. -/
def preimage (r : Record) : Bytes := domain ++ r.withoutGroup.encode

/-- The digest that identifies a transaction, whatever group it claims. -/
def digest (r : Record) : Digest := Sha512.hash256 r.preimage

end Record

end AtomicGroups
