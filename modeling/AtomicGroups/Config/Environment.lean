import AtomicGroups.Config
import AtomicGroups.Text.Blank
import AtomicGroups.Text.Decimal

/-!
# Configuration from the environment

Three limits may be set by environment variables.  A variable that does not hold a usable number is
ignored, so that the result always passes `Config.validate`.
-/

namespace AtomicGroups.Config

/-- The content of each environment variable, none if it is unset. -/
abbrev Environment := String → Option Bytes

def batchVariable : String := "QC_GROUP_MAX_BATCH_SIZE"

def groupVariable : String := "QC_GROUP_MAX_GROUP_SIZE"

def depthVariable : String := "QC_GROUP_MAX_DEPTH"

/-- The limit that the content of a variable sets: a number from one to `max`, with or without white
space around it. -/
def limit? (max : Nat) (content : Bytes) : Option Nat := do
  let text ← content.toString?
  let n ← Text.word? (Text.trim text.toList)
  if 0 < n ∧ n ≤ max then some n else none

/-- The default limits, except for those that the environment sets. -/
def ofEnvironment (env : Environment) : Config :=
  let standard : Config := {}
  let limit (name : String) (max fallback : Nat) : Nat :=
    ((env name).bind (limit? max)).getD fallback
  { maxBatch := limit batchVariable Text.maxWord standard.maxBatch
    maxGroup := limit groupVariable Text.maxWord standard.maxGroup
    limits := { standard.limits with
      maxDepth := limit depthVariable depthCeiling standard.limits.maxDepth } }

end AtomicGroups.Config
