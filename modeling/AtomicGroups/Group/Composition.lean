import AtomicGroups.Transaction

/-!
# Composing groups

The group of an ordered list of records is the hash of the list of their digests, which is written
as a map with one entry, or as the empty map when the list is empty.
-/

namespace AtomicGroups

namespace Group

/-- The key of the list of digests. -/
def listKey : String := "txlist"

/-- The tag in front of a list of digests that is hashed. -/
def domain : Bytes := Bytes.ofString "TG"

/-- A list of digests, as encoded. -/
def encodeList (digests : List Digest) : Bytes :=
  if digests.isEmpty then Wire.Canonical.mapHeader 0
  else
    Wire.Canonical.mapHeader 1 ++ Wire.Canonical.string listKey ++
      Wire.Canonical.arrayHeader digests.length ++
      digests.flatMap fun d => Wire.Canonical.binary d.bytes

/-- The bytes whose hash is the group of a list of digests. -/
def preimage (digests : List Digest) : Bytes := domain ++ encodeList digests

def ofDigests (digests : List Digest) : Digest := Sha512.hash256 (preimage digests)

/-- The group of a list of records, whatever groups they claim. -/
def ofRecords (records : List Record) : Digest := ofDigests (records.map Record.digest)

end Group

namespace Batch

def group (limits : Limits) (batch : Batch) : Except BatchError Digest :=
  Group.ofRecords <$> batch.records limits

/-- The batch with its own group stamped on every transaction, in place of any group claimed
before. -/
def stamp (limits : Limits) (batch : Batch) : Except BatchError Batch := do
  let records ← batch.records limits
  let group := Group.ofRecords records
  return records.map fun r => (r.withGroup group).toTransaction

end Batch

end AtomicGroups
