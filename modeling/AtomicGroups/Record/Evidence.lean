import AtomicGroups.Record.Grammar
import AtomicGroups.Wire.Error

/-!
# What errors point at

An error says where in the input something is that no record has there.  `Evidence limits b e` says,
without a reader, that this is so: that the bytes `b` have at the offset of `e` what `e` tells of
them, and in front of it what a record may have there.

Three places are told apart: where an entry starts (`IsEntryStart`), where the value of an entry or
an item in it does (`IsInside`), and where a value of whatever kind does, which may be the record
itself (`IsValueStart`).
-/

namespace AtomicGroups

namespace Wire

/-- The header of a container of `length` entries, behind which `items` values belong to it. -/
inductive IsContainer : Bytes → (length items : Nat) → Prop
  | array {header : Bytes} {n : Nat} : IsHeader .array header n → IsContainer header n n
  | map {header : Bytes} {n : Nat} : IsHeader .map header n → IsContainer header n (n * 2)

/-- The bytes of a value in front of one of the items in it: `depth` containers are open, each of
them behind fewer items than it announces, all of them complete. -/
inductive IsInside (maxEntries : Nat) : (height depth : Nat) → Bytes → Prop
  | start {height : Nat} : IsInside maxEntries height 0 []
  | item {height depth length items n : Nat} {header before inner : Bytes} :
    IsContainer header length items → length ≤ maxEntries → n < items →
    AreValues maxEntries height n before → IsInside maxEntries height depth inner →
    IsInside maxEntries (height + 1) (depth + 1) (header ++ before ++ inner)

end Wire

open Wire

/-- The bytes of a record in front of an entry: the header, and fewer entries than it announces, all
of them complete. -/
inductive IsEntryStart (limits : Limits) (entries : List (String × Field)) : Bytes → Prop
  | mk {header body : Bytes} {n height : Nat} :
    IsHeader .map header n → n ≤ limits.maxEntries → height + 1 = limits.maxDepth →
    entries.length < n → AreEntries limits.maxEntries height entries body →
    IsEntryStart limits entries (header ++ body)

/-- The bytes in front of a value that lies inside `level` open containers: none in front of the
record, and in front of any other value an entry up to there. -/
inductive IsValueStart (limits : Limits) : (level : Nat) → Bytes → Prop
  | record : IsValueStart limits 0 []
  | inside {entries : List (String × Field)} {before name inner : Bytes} {key : String}
    {depth : Nat} :
    IsEntryStart limits entries before → IsKey name key →
    IsInside limits.maxEntries (limits.maxDepth - 1) depth inner →
    IsValueStart limits (depth + 1) (before ++ name ++ inner)

/-- What there is to be seen in the bytes `b` when they are refused for a cause. -/
inductive Evidence (limits : Limits) (b : Bytes) : DecodeError → Prop
  /-- Bytes are missing: no record begins with these bytes and goes on with fewer than that. -/
  | endOfInput {offset needed : Nat} : offset ≤ b.length → 0 < needed →
    (∀ later entries, IsRecord limits entries (b ++ later) → needed ≤ later.length) →
    Evidence limits b (.endOfInput offset needed)
  /-- The first byte starts no map. -/
  | notAMap {found : UInt8} {later : Bytes} : b = found :: later →
    (∀ k, ¬ TypeByte found (.map k)) → Evidence limits b (.notAMap found)
  /-- Where an entry starts, no text does. -/
  | nonStringKey {entries : List (String × Field)} {before later : Bytes} {found : UInt8} :
    b = before ++ found :: later → IsEntryStart limits entries before →
    (∀ k, ¬ TypeByte found (.string k)) → Evidence limits b (.nonStringKey before.length found)
  /-- Where an entry starts, there is a text, but its bytes are those of no string. -/
  | invalidKey {entries : List (String × Field)} {before count text later : Bytes} {tag : UInt8}
    {k : Count} :
    b = before ++ tag :: (count ++ text) ++ later → IsEntryStart limits entries before →
    TypeByte tag (.string k) → k.Spells count text.length → (∀ s, text ≠ Bytes.ofString s) →
    Evidence limits b (.invalidKey before.length)
  /-- There is an entry behind another one with the same key. -/
  | duplicateKey {entries : List (String × Field)} {before name value later : Bytes}
    {key : String} :
    b = before ++ name ++ value ++ later → IsEntryStart limits entries before → IsKey name key →
    IsValue limits.maxEntries (limits.maxDepth - 1) value → key ∈ entries.map Prod.fst →
    Evidence limits b (.duplicateKey key)
  /-- The byte that starts no value stands where one does. -/
  | reservedType {level : Nat} {before later : Bytes} :
    b = before ++ 0xc1 :: later → IsValueStart limits (level + 1) before →
    Evidence limits b (.reservedType before.length 0xc1)
  /-- A container starts inside as many open ones as are allowed. -/
  | depthLimitExceeded {before header later : Bytes} {length items : Nat} :
    b = before ++ header ++ later → IsValueStart limits limits.maxDepth before →
    IsContainer header length items →
    Evidence limits b (.depthLimitExceeded before.length limits.maxDepth)
  /-- A container announces more entries than are allowed. -/
  | containerTooLarge {level : Nat} {before header later : Bytes} {length items : Nat} :
    b = before ++ header ++ later → IsValueStart limits level before → level < limits.maxDepth →
    IsContainer header length items → limits.maxEntries < length →
    Evidence limits b (.containerTooLarge before.length length limits.maxEntries)
  /-- There is a value under the key of the group that is no binary of 32 bytes. -/
  | invalidGroupField {entries : List (String × Field)} {before name value later : Bytes} :
    b = before ++ name ++ value ++ later → IsEntryStart limits entries before →
    IsKey name groupKey → IsValue limits.maxEntries (limits.maxDepth - 1) value →
    (∀ payload, IsBinary payload value → payload.length ≠ 32) →
    Evidence limits b (.invalidGroupField (before.length + name.length) value)
  /-- A record ends in front of the end of the input. -/
  | trailingBytes {entries : List (String × Field)} {before later : Bytes} :
    b = before ++ later → IsRecord limits entries before → later ≠ [] →
    Evidence limits b (.trailingBytes before.length later.length)

end AtomicGroups
