import AtomicGroups.Limits
import AtomicGroups.Record.Basic
import AtomicGroups.Wire.Grammar

/-!
# The grammar of records

`IsRecord limits entries b` says, without a reader, that the bytes `b` are one record whose entries,
in the order in which they are written, are `entries`.
-/

namespace AtomicGroups

open Wire

/-- The bytes of a number of entries in a row. -/
inductive AreEntries (maxEntries height : Nat) : List (String × Field) → Bytes → Prop
  | nil : AreEntries maxEntries height [] []
  | cons {key : String} {value : Field} {entries : List (String × Field)} {name rest : Bytes} :
    IsKey name key → IsValue maxEntries height value.encoded →
    AreEntries maxEntries height entries rest →
    AreEntries maxEntries height ((key, value) :: entries) (name ++ value.encoded ++ rest)

/-- The bytes of a record within limits: a map of at most so many entries, no two of which have the
same key and none of which has a group that is no binary of 32 bytes. -/
inductive IsRecord (limits : Limits) (entries : List (String × Field)) : Bytes → Prop
  | mk {tag : UInt8} {k : Count} {count body : Bytes} {height : Nat} :
    TypeByte tag (.map k) → k.Spells count entries.length →
    entries.length ≤ limits.maxEntries → height + 1 = limits.maxDepth →
    AreEntries limits.maxEntries height entries body →
    (entries.map Prod.fst).Nodup →
    (∀ value, (groupKey, value) ∈ entries →
      ∃ payload, payload.length = 32 ∧ IsBinary payload value.encoded) →
    IsRecord limits entries (tag :: (count ++ body))

end AtomicGroups
