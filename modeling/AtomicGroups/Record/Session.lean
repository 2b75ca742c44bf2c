import Mathlib
import AtomicGroups.Record.Decoding

/-!
# Records under calls

A session is a list of calls on records that are kept in numbered places.  A call makes a record,
decodes one or puts a changed copy of one in a place, which may be the place it came from.  The
values of fields come from the builders, or from the fields of records in other places.
-/

namespace AtomicGroups.Record

/-- Records by place. -/
abbrev Records := Nat → Option Record

/-- Where a value comes from.  No text or payload is built that is too long for a header. -/
inductive Source
  | unsigned (n : Nat)
  | string (s : String) (length_lt : (Bytes.ofString s).length < 2 ^ 32)
  | binary (payload : Bytes) (length_lt : payload.length < 2 ^ 32)
  /-- The field with some key of the record in a place. -/
  | field (place : Nat) (key : String)
deriving DecidableEq

/-- The value that comes from a source, if there is one. -/
def Source.value? (records : Records) : Source → Option Field
  | unsigned n => some (.unsigned n)
  | string s _ => some (.string s)
  | binary payload _ => some (.binary payload)
  | field place key => (records place).bind fun r => r.field? key

/-- A call, which leaves a record in the place `target`. -/
inductive Call
  /-- Makes a record without fields and without a group. -/
  | new (target : Nat)
  /-- Decodes a byte string; there is no change if it is no record. -/
  | decode (target : Nat) (limits : Limits) (bytes : Bytes)
  | clone (place target : Nat)
  /-- Sets a field; there is no change if there is no value to set it to. -/
  | insert (place target : Nat) (key : String) (source : Source)
  | withGroup (place target : Nat) (group : Digest)
  | withoutGroup (place target : Nat)
deriving DecidableEq

/-- The records after a call. -/
def Call.run (records : Records) : Call → Records
  | new target => Function.update records target (some empty)
  | decode target limits bytes =>
    match Record.decode limits bytes with
    | .ok r => Function.update records target (some r)
    | .error _ => records
  | clone place target => Function.update records target (records place)
  | insert place target key source =>
    match source.value? records with
    | some value => Function.update records target ((records place).map (·.insert key value))
    | none => records
  | withGroup place target group =>
    Function.update records target ((records place).map (·.withGroup group))
  | withoutGroup place target =>
    Function.update records target ((records place).map (·.withoutGroup))

/-- The records after some calls; before the first, there are none. -/
def recordsAfter (calls : List Call) : Records := calls.foldl Call.run fun _ => none

end AtomicGroups.Record
