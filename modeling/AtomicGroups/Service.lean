import AtomicGroups.Config
import AtomicGroups.Segment.Scan

/-!
# Grouping under limits

A `Service` answers questions about batches that stay within a configuration: their groups, their
stamped form, whether they are consistent and which runs they are made of.
-/

namespace AtomicGroups

/-- The limits that batches are answered under.  The bounds on records need not be those of the
configuration. -/
structure Service where
  config : Config
  limits : Limits
deriving DecidableEq

namespace Service

/-- The service with the default limits. -/
def standard : Service := ⟨{}, {}⟩

/-- A service that reads records within bounds of its own; the configuration has to be usable. -/
def withLimits (limits : Limits) (config : Config) : Except BatchError Service :=
  match config.validate with
  | .ok () => .ok ⟨config, limits⟩
  | .error cause => .error (.invalidConfig cause)

/-- A service under a configuration, which has to be usable. -/
def ofConfig (config : Config) : Except BatchError Service := withLimits config.limits config

/-- Refuses a batch of too many transactions. -/
def checkBatch (s : Service) (batch : Batch) : Except BatchError Unit :=
  if s.config.maxBatch < batch.length then
    .error (.batchTooLarge batch.length s.config.maxBatch)
  else .ok ()

/-- Refuses a batch that cannot become one group. -/
def checkGroup (s : Service) (batch : Batch) : Except BatchError Unit := do
  if batch.isEmpty then throw .emptyBatch
  s.checkBatch batch
  if s.config.maxGroup < batch.length then
    throw (.groupTooLarge batch.length s.config.maxGroup)

/-- The digest of a transaction; an error names position zero. -/
def digest (s : Service) (tx : Transaction) : Except BatchError Digest :=
  (tx.digest s.limits).mapError (.malformed 0)

/-- The group that `stamp` would stamp on a batch. -/
def group (s : Service) (batch : Batch) : Except BatchError Digest := do
  s.checkGroup batch
  batch.group s.limits

/-- The batch with its own group stamped on every transaction. -/
def stamp (s : Service) (batch : Batch) : Except BatchError Batch := do
  s.checkGroup batch
  batch.stamp s.limits

/-- Whether every group claimed in a batch is the group of the batch. -/
def verify (s : Service) (batch : Batch) : Except BatchError Bool := do
  s.checkBatch batch
  batch.verify s.limits

/-- The runs of a batch. -/
def segment (s : Service) (batch : Batch) : Except BatchError Assignment := do
  s.checkBatch batch
  batch.segment s.limits s.config.maxGroup

/-- The index of the run of each position of a batch. -/
def indices (s : Service) (batch : Batch) : Except BatchError (Array Nat) :=
  Assignment.indices <$> s.segment batch

end Service

end AtomicGroups
