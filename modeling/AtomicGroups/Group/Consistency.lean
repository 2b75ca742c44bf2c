import AtomicGroups.Group.Composition

/-!
# Checking groups

A batch is consistent when every group claimed in it is the group of the whole batch.  A run of
records is checked against one claim; when it fails, the group that the run composes to is named.
-/

namespace AtomicGroups

namespace Group

/-- Whether every group that the records claim is the group of all of them. -/
def consistent (records : List Record) : Bool :=
  if records.all fun r => !r.isStamped then true
  else
    let group := ofRecords records
    records.all fun r => !r.isStamped || r.group = group

/-- Checks the group that a run of records claims against the group it composes to, which is the
error when the two differ. -/
def check (claimed : Digest) (members : List Record) : Except Digest Unit :=
  let computed := ofRecords members
  if computed = claimed then .ok () else .error computed

end Group

namespace Batch

/-- Whether every group claimed in a batch is the group of the batch. -/
def verify (limits : Limits) (batch : Batch) : Except BatchError Bool :=
  Group.consistent <$> batch.records limits

end Batch

end AtomicGroups
