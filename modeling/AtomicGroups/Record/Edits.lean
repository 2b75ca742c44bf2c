import AtomicGroups.Record.Encoding

/-!
# Building records

A record is built by edits, from one without fields and without a group.  Later edits take
precedence: what counts is the last value for each key and the last group, however often and in
whatever order others were set before.
-/

namespace AtomicGroups.Record

/-- A change to a record, in place or on a copy. -/
inductive Edit
  | insert (key : String) (value : Field)
  /-- Sets a field and asks for its value before. -/
  | exchange (key : String) (value : Field)
  /-- Sets the group, also to zero. -/
  | withGroup (group : Digest)
deriving DecidableEq

namespace Edit

def run (r : Record) : Edit → Record
  | insert key value => r.insert key value
  | exchange key value => (r.exchange key value).2
  | withGroup group => r.withGroup group

/-- The value that an edit gives for a key. -/
def value? (key : String) : Edit → Option Field
  | insert key' value => if key' = key then some value else none
  | exchange key' value => if key' = key then some value else none
  | withGroup _ => none

/-- The group that an edit sets: under the group key, only a binary of 32 bytes does. -/
def group? : Edit → Option Digest
  | insert key value => if key = groupKey then value.digest? else none
  | exchange key value => if key = groupKey then value.digest? else none
  | withGroup group => some group

end Edit

/-- The record that some edits build. -/
def build (edits : List Edit) : Record := edits.foldl Edit.run empty

/-- The last value that is given for a key. -/
def lastValue? (key : String) (edits : List Edit) : Option Field :=
  (edits.filterMap (Edit.value? key)).getLast?

/-- The last group that is set, zero if none is. -/
def lastGroup (edits : List Edit) : Digest :=
  (edits.filterMap Edit.group?).getLast?.getD Digest.zero

/-- Whether edits agree in what they come to. -/
structure Agree (edits edits' : List Edit) : Prop where
  values : ∀ key ≠ groupKey, lastValue? key edits = lastValue? key edits'
  group : lastGroup edits = lastGroup edits'

end AtomicGroups.Record
