import AtomicGroups.Record.Grammar

/-!
# Layouts

A record may be laid out in many ways.  A `Layout` is one of them, cut into the header of the map
and its entries; `Layout.IsCanonical` picks out one layout of each record.  `Rewrites` says which
changes to the entries leave the record as it is.
-/

namespace AtomicGroups

open Wire

/-- An entry as it is written: the bytes of its key, the key that they are read as, the value. -/
structure WrittenEntry where
  name : Bytes
  key : String
  value : Field
  isKey : IsKey name key

def WrittenEntry.bytes (e : WrittenEntry) : Bytes := e.name ++ e.value.encoded

/-- The parts of a map that is a record: the header, which counts the entries, and the entries. -/
structure Layout where
  header : Bytes
  entries : List WrittenEntry
  isHeader : IsHeader .map header entries.length

namespace Layout

def bytes (l : Layout) : Bytes := l.header ++ l.entries.flatMap WrittenEntry.bytes

/-- Whether each value is one that the grammar allows within limits. -/
def Fits (limits : Limits) (l : Layout) : Prop :=
  ∀ e ∈ l.entries, IsValue limits.maxEntries (limits.maxDepth - 1) e.value.encoded

/-- The canonical layout of a record: every header is as short as it can be, the keys ascend, and a
group is written with one byte for its length and only if it is not zero. -/
structure IsCanonical (l : Layout) : Prop where
  header : IsShortest (IsHeader .map · l.entries.length) l.header
  names : ∀ e ∈ l.entries, IsShortest (IsKey · e.key) e.name
  ascending : l.entries.Pairwise fun e f => byteOrder e.key f.key = .lt
  group : ∀ e ∈ l.entries, e.key = groupKey →
    ∃ d : Digest, d ≠ Digest.zero ∧ e.value.encoded = 0xc4 :: 0x20 :: d.bytes

end Layout

/-! ## Changes that keep the record -/

/-- One list of entries can be turned into another by such changes, one after the other. -/
inductive Rewrites : List WrittenEntry → List WrittenEntry → Prop
  /-- The order of the entries. -/
  | order {es es' : List WrittenEntry} : es.Perm es' → Rewrites es es'
  /-- The width of the header of a key. -/
  | keyWidth {before after : List WrittenEntry} {e e' : WrittenEntry} :
    e.key = e'.key → e.value = e'.value →
    Rewrites (before ++ e :: after) (before ++ e' :: after)
  /-- The width of the header of the group. -/
  | groupWidth {before after : List WrittenEntry} {e e' : WrittenEntry} {payload : Bytes} :
    e.key = groupKey → e'.key = groupKey → e.name = e'.name →
    IsBinary payload e.value.encoded → IsBinary payload e'.value.encoded →
    Rewrites (before ++ e :: after) (before ++ e' :: after)
  /-- A group of zeros is written. -/
  | zeroGroup {before after : List WrittenEntry} {e : WrittenEntry} :
    e.key = groupKey → IsBinary Digest.zero.bytes e.value.encoded →
    Rewrites (before ++ after) (before ++ e :: after)
  | symm {es es' : List WrittenEntry} : Rewrites es es' → Rewrites es' es
  | trans {es es' es'' : List WrittenEntry} : Rewrites es es' → Rewrites es' es'' → Rewrites es es''

end AtomicGroups
