import AtomicGroups.Bytes
import AtomicGroups.Wire.Format

/-!
# The grammar of values

`IsValue maxEntries height b` says, without a reader, that the bytes `b` are one well-formed value:
no container in it has more than `maxEntries` entries, and containers nest at most `height` deep.  A
count may be written in any width that the format has.

What each type byte announces is listed row by row in `typeBytes`.  Readers compute the same from
the byte (`typeByte_iff`).
-/

namespace AtomicGroups.Wire

/-! ## Type bytes -/

/-- Rows for `width` type bytes from `base` on. -/
def rows (base : UInt8) (width : Nat) (format : Nat → Format) : List (UInt8 × Format) :=
  (List.range width).map fun n => (base + UInt8.ofNat n, format n)

/-- The type bytes of MessagePack and what they announce.  The byte 0xc1 has no row. -/
def typeBytes : List (UInt8 × Format) :=
  rows 0x00 128 (fun _ => .fixed 0) ++
  rows 0x80 16 (fun n => .map (.inTag n)) ++
  rows 0x90 16 (fun n => .array (.inTag n)) ++
  rows 0xa0 32 (fun n => .string (.inTag n)) ++
  [(0xc0, .fixed 0), (0xc2, .fixed 0), (0xc3, .fixed 0),
    (0xc4, .binary (.wide 1)), (0xc5, .binary (.wide 2)), (0xc6, .binary (.wide 4)),
    (0xc7, .extension (.wide 1)), (0xc8, .extension (.wide 2)), (0xc9, .extension (.wide 4)),
    (0xca, .fixed 4), (0xcb, .fixed 8),
    (0xcc, .fixed 1), (0xcd, .fixed 2), (0xce, .fixed 4), (0xcf, .fixed 8),
    (0xd0, .fixed 1), (0xd1, .fixed 2), (0xd2, .fixed 4), (0xd3, .fixed 8),
    -- the payload of a short extension comes behind one byte for its type
    (0xd4, .fixed 2), (0xd5, .fixed 3), (0xd6, .fixed 5), (0xd7, .fixed 9), (0xd8, .fixed 17),
    (0xd9, .string (.wide 1)), (0xda, .string (.wide 2)), (0xdb, .string (.wide 4)),
    (0xdc, .array (.wide 2)), (0xdd, .array (.wide 4)),
    (0xde, .map (.wide 2)), (0xdf, .map (.wide 4))] ++
  rows 0xe0 32 (fun _ => .fixed 0)

/-- Whether a type byte announces a format. -/
def TypeByte (tag : UInt8) (f : Format) : Prop := (tag, f) ∈ typeBytes

instance (tag : UInt8) (f : Format) : Decidable (TypeByte tag f) :=
  inferInstanceAs (Decidable ((tag, f) ∈ typeBytes))

/-! ## Values and keys -/

/-- `k.Spells b n` says that the bytes `b`, which follow the type byte, give the count `n`. -/
def Count.Spells (k : Count) (b : Bytes) (n : Nat) : Prop :=
  match k with
  | .inTag m => b = [] ∧ n = m
  | .wide width => b.length = width ∧ n = Bytes.toNat b

/-- The bytes of a header that gives the count `n`; `format` says what is counted. -/
inductive IsHeader (format : Count → Format) : Bytes → Nat → Prop
  | mk {tag : UInt8} {k : Count} {count : Bytes} {n : Nat} :
    TypeByte tag (format k) → k.Spells count n → IsHeader format (tag :: count) n

/-- Whether of all byte strings with a property none is shorter than `b`. -/
def IsShortest (P : Bytes → Prop) (b : Bytes) : Prop := P b ∧ ∀ b', P b' → b.length ≤ b'.length

mutual

/-- The bytes of one value. -/
inductive IsValue (maxEntries : Nat) : (height : Nat) → Bytes → Prop
  | fixed {height : Nat} {tag : UInt8} {payload : Bytes} :
    TypeByte tag (.fixed payload.length) →
    IsValue maxEntries height (tag :: payload)
  | string {height : Nat} {tag : UInt8} {k : Count} {count text : Bytes} :
    TypeByte tag (.string k) → k.Spells count text.length →
    IsValue maxEntries height (tag :: (count ++ text))
  | binary {height : Nat} {tag : UInt8} {k : Count} {count payload : Bytes} :
    TypeByte tag (.binary k) → k.Spells count payload.length →
    IsValue maxEntries height (tag :: (count ++ payload))
  | extension {height : Nat} {tag type : UInt8} {k : Count} {count payload : Bytes} :
    TypeByte tag (.extension k) → k.Spells count payload.length →
    IsValue maxEntries height (tag :: (count ++ type :: payload))
  | array {height : Nat} {tag : UInt8} {k : Count} {count items : Bytes} {n : Nat} :
    TypeByte tag (.array k) → k.Spells count n → n ≤ maxEntries →
    AreValues maxEntries height n items →
    IsValue maxEntries (height + 1) (tag :: (count ++ items))
  | map {height : Nat} {tag : UInt8} {k : Count} {count items : Bytes} {n : Nat} :
    TypeByte tag (.map k) → k.Spells count n → n ≤ maxEntries →
    AreValues maxEntries height (n * 2) items →
    IsValue maxEntries (height + 1) (tag :: (count ++ items))

/-- The bytes of a number of values in a row. -/
inductive AreValues (maxEntries : Nat) : (height n : Nat) → Bytes → Prop
  | nil {height : Nat} : AreValues maxEntries height 0 []
  | cons {height n : Nat} {value rest : Bytes} :
    IsValue maxEntries height value → AreValues maxEntries height n rest →
    AreValues maxEntries height (n + 1) (value ++ rest)

end

/-- The bytes of a key. -/
inductive IsKey : Bytes → String → Prop
  | mk {tag : UInt8} {k : Count} {count : Bytes} {key : String} :
    TypeByte tag (.string k) → k.Spells count (Bytes.ofString key).length →
    IsKey (tag :: (count ++ Bytes.ofString key)) key

/-- The bytes of a binary with the given payload. -/
inductive IsBinary (payload : Bytes) : Bytes → Prop
  | mk {tag : UInt8} {k : Count} {count : Bytes} :
    TypeByte tag (.binary k) → k.Spells count payload.length →
    IsBinary payload (tag :: (count ++ payload))

end AtomicGroups.Wire
