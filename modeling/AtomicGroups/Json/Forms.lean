import AtomicGroups.Config
import AtomicGroups.Json.Parser
import AtomicGroups.Segment.Run
import AtomicGroups.Text.Decimal
import AtomicGroups.Transaction

/-!
# JSON forms

How configurations, runs, assignments, digests and transactions are written in JSON and read back.
A structure is written as an object with its fields in order; it is read from an object with its
fields in any order, and perhaps others, or from an array of exactly its fields.  Bytes are arrays
of numbers.
-/

namespace AtomicGroups

namespace Json

/-! ## Reading -/

/-- A natural number up to `max`. -/
def naturalUpTo? (max : Nat) : Json → Option Nat
  | .number (.natural digits) => AtomicGroups.Text.digitsUpTo? max digits
  | _ => none

def word? : Json → Option Nat := naturalUpTo? AtomicGroups.Text.maxWord

/-- An array, each item of which can be read. -/
def list? {α : Type} (item? : Json → Option α) : Json → Option (List α)
  | .array items => items.mapM item?
  | _ => none

/-- An array of bytes. -/
def bytes? : Json → Option Bytes := list? fun j => UInt8.ofNat <$> naturalUpTo? 255 j

/-- The values of the named fields, in order.  In an object each has to be there exactly once and
every key has to be well formed; an array has to hold them and nothing else. -/
def fields? (names : List String) : Json → Option (List Json)
  | .array items => if items.length = names.length then some items else none
  | .object members =>
    if members.all fun (key, _) => key.isWellFormed then
      names.mapM fun name =>
        match members.filter fun (key, _) => key = Text.ofString name with
        | [(_, v)] => some v
        | _ => none
    else none
  | _ => none

/-! ## Writing -/

/-- An array of items that are written already. -/
def writeArray (items : List String) : String := "[" ++ ",".intercalate items ++ "]"

/-- An object of fields whose values are written already; the names need no escapes. -/
def writeObject (fields : List (String × String)) : String :=
  let members := fields.map fun (name, value) => "\"" ++ name ++ "\":" ++ value
  "\x7b" ++ ",".intercalate members ++ "\x7d"

def writeNaturals (ns : List Nat) : String := writeArray (ns.map Nat.repr)

/-- An array of bytes. -/
def writeBytes (bs : Bytes) : String := writeNaturals (bs.map UInt8.toNat)

end Json

open Json

/-! ## Forms -/

def Limits.jsonFields : List String := ["max_depth", "max_container_len"]

def Limits.ofJson? (j : Json) : Option Limits := do
  match ← fields? Limits.jsonFields j with
  | [depth, entries] => return { maxDepth := ← word? depth, maxEntries := ← word? entries }
  | _ => none

def Limits.toJson (l : Limits) : String :=
  writeObject (Limits.jsonFields.zip [l.maxDepth.repr, l.maxEntries.repr])

def Config.jsonFields : List String := ["max_batch_size", "max_group_size", "decode_limits"]

/-- Reads a configuration; whether it can be used is not looked at. -/
def Config.ofJson? (j : Json) : Option Config := do
  match ← fields? Config.jsonFields j with
  | [batch, group, limits] =>
    return {
      maxBatch := ← word? batch
      maxGroup := ← word? group
      limits := ← Limits.ofJson? limits }
  | _ => none

def Config.toJson (c : Config) : String :=
  writeObject (Config.jsonFields.zip [c.maxBatch.repr, c.maxGroup.repr, c.limits.toJson])

def Digest.ofJson? (j : Json) : Option Digest := (bytes? j).bind Digest.ofBytes?

def Digest.toJson (d : Digest) : String := writeBytes d.bytes

def Transaction.ofJson? (j : Json) : Option Transaction := Transaction.mk <$> bytes? j

def Transaction.toJson (tx : Transaction) : String := writeBytes tx.bytes

def Run.jsonFields : List String := ["index", "start", "end", "group"]

def Run.ofJson? (j : Json) : Option Run := do
  match ← fields? Run.jsonFields j with
  | [index, start, stop, group] =>
    return ⟨← word? index, ← word? start, ← word? stop, ← Digest.ofJson? group⟩
  | _ => none

def Run.toJson (r : Run) : String :=
  writeObject (Run.jsonFields.zip [r.index.repr, r.start.repr, r.stop.repr, r.group.toJson])

def Assignment.jsonFields : List String := ["indices", "runs"]

/-- Reads an assignment; whether its indices fit its runs is not looked at. -/
def Assignment.ofJson? (j : Json) : Option Assignment := do
  match ← fields? Assignment.jsonFields j with
  | [indices, runs] =>
    return ⟨(← list? word? indices).toArray, (← list? Run.ofJson? runs).toArray⟩
  | _ => none

def Assignment.toJson (a : Assignment) : String :=
  writeObject (Assignment.jsonFields.zip
    [writeNaturals a.indices.toList, writeArray (a.runs.toList.map Run.toJson)])

end AtomicGroups
