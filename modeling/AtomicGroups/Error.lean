import AtomicGroups.Digest
import AtomicGroups.Wire.Error

/-!
# Why a batch is refused

A `RunError` is a fault in the grouping of a batch that can be read: it names the positions
`[start, stop)` of the run it was found in.  A `ConfigError` is a limit that cannot be used.  A
`BatchError` is any cause for which a batch gets no answer.
-/

namespace AtomicGroups

/-- A fault in the grouping of a batch. -/
inductive RunError
  /-- The run claims one group and composes to another. -/
  | digestMismatch (start stop : Nat) (claimed computed : Digest)
  /-- The run claims the group of an earlier run, which it does not continue. -/
  | nonContiguousGroup (start stop : Nat) (group : Digest) (firstStart firstStop : Nat)
  /-- The run has more than `max` members. -/
  | groupTooLarge (start stop max : Nat)
deriving DecidableEq

namespace RunError

def range : RunError → Nat × Nat
  | digestMismatch start stop _ _ => (start, stop)
  | nonContiguousGroup start stop _ _ _ => (start, stop)
  | groupTooLarge start stop _ => (start, stop)

/-- The text that a fault is reported with. -/
def message : RunError → String
  | digestMismatch start stop claimed computed =>
    s!"transactions in range [{start}, {stop}) claim group {claimed.hex} " ++
      s!"but compose to {computed.hex}"
  | nonContiguousGroup start stop group firstStart firstStop =>
    s!"transactions in range [{start}, {stop}) do not form a contiguous group: " ++
      s!"group {group.hex} already used by [{firstStart}, {firstStop})"
  | groupTooLarge start stop max =>
    s!"transactions in range [{start}, {stop}) exceed the group size limit of {max}"

end RunError

/-- A limit that cannot be used. -/
inductive ConfigError
  /-- The setting of this name is zero. -/
  | zeroLimit (setting : String)
  /-- The decoding depth lies above its ceiling. -/
  | depthTooLarge (depth ceiling : Nat)
deriving DecidableEq

def ConfigError.message : ConfigError → String
  | zeroLimit setting => s!"{setting} must be at least 1"
  | depthTooLarge depth ceiling =>
    s!"decode_limits.max_depth {depth} exceeds the ceiling of {ceiling}"

/-- The causes for which a batch gets no answer. -/
inductive BatchError
  /-- The transaction at `index` is no record. -/
  | malformed (index : Nat) (cause : DecodeError)
  /-- The batch can be read, but its groups are at fault. -/
  | grouping (fault : RunError)
  /-- The batch has no transaction, so there is nothing to group. -/
  | emptyBatch
  /-- The batch has more than `max` transactions. -/
  | batchTooLarge (size max : Nat)
  /-- The batch to become one group has more than `max` transactions. -/
  | groupTooLarge (size max : Nat)
  /-- The limits to work under cannot be used. -/
  | invalidConfig (cause : ConfigError)
deriving DecidableEq

def BatchError.message : BatchError → String
  | malformed index cause => s!"Transaction {index} is malformed: {cause.message}"
  | grouping fault => fault.message
  | emptyBatch => "Empty transaction batch"
  | batchTooLarge size max => s!"Batch size exceeded: {size} > {max}"
  | groupTooLarge size max => s!"Group size exceeded: {size} > {max}"
  | invalidConfig cause => s!"Invalid configuration: {cause.message}"

end AtomicGroups
