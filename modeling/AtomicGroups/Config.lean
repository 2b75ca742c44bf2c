import AtomicGroups.Error
import AtomicGroups.Limits

/-!
# Configuration

The limits that a service works under, and the check that they can be used: none is zero, and the
decoding depth does not exceed its ceiling.
-/

namespace AtomicGroups

/-- The limits that a service works under. -/
structure Config where
  /-- The number of transactions in one batch. -/
  maxBatch : Nat := 1024
  /-- The number of transactions in one group. -/
  maxGroup : Nat := 16
  /-- The bounds on each record. -/
  limits : Limits := {}
deriving DecidableEq, Inhabited

namespace Config

/-- The greatest decoding depth that may be asked for. -/
def depthCeiling : Nat := 64

/-- The settings by name, in the order in which they are checked. -/
def settings (c : Config) : List (String × Nat) :=
  [("max_batch_size", c.maxBatch), ("max_group_size", c.maxGroup),
    ("decode_limits.max_depth", c.limits.maxDepth),
    ("decode_limits.max_container_len", c.limits.maxEntries)]

/-- Checks that every limit can be used. -/
def validate (c : Config) : Except ConfigError Unit :=
  match c.settings.find? fun setting => setting.2 = 0 with
  | some (name, _) => .error (.zeroLimit name)
  | none =>
    if depthCeiling < c.limits.maxDepth then
      .error (.depthTooLarge c.limits.maxDepth depthCeiling)
    else .ok ()

end Config

end AtomicGroups
