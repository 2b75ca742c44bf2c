import AtomicGroups.Wire.Session

/-!
# Reading with machine words

The same steps as those of a `Reader`, with offsets, counts and levels that are words of 64 bits.  A
sum or a product that does not fit a word, a difference below zero and a slice beyond the buffer
have no result: they are faults, which end a session.  A walk that reads more than one header beyond
the number of bytes left is a fault too.

A buffer is kept as a whole and a place in it as the number of bytes passed.
-/

namespace AtomicGroups.Wire.Checked

/-- Limits as words. -/
structure WordLimits where
  maxDepth : UInt64
  maxEntries : UInt64
deriving DecidableEq

def WordLimits.toLimits (limits : WordLimits) : Limits :=
  ⟨limits.maxDepth.toNat, limits.maxEntries.toNat⟩

/-- Why a step stops. -/
inductive Stop
  /-- The input is refused; reading may go on from where this was found. -/
  | refused (cause : DecodeError)
  /-- An operation has no result. -/
  | fault
deriving DecidableEq

/-- A reading step; the state is the number of bytes passed. -/
abbrev Step := EStateM Stop UInt64

/-- What a reading step comes to, and the number of bytes passed behind it. -/
abbrev Result := EStateM.Result Stop UInt64

def Result.passed {α : Type} : Result α → UInt64
  | .ok _ pos => pos
  | .error _ pos => pos

def refuse {α : Type} (cause : DecodeError) : Step α := throw (.refused cause)

/-! ## Operations -/

/-- An operation that has the result `a` under a condition, and otherwise none. -/
def check {α : Type} (p : Prop) [Decidable p] (a : α) : Step α :=
  if p then return a else throw .fault

/-- A number that fits a word. -/
def word (n : Nat) : Step UInt64 := check (n < UInt64.size) (.ofNat n)

def add (a b : UInt64) : Step UInt64 := check (a.toNat + b.toNat < UInt64.size) (a + b)

def sub (a b : UInt64) : Step UInt64 := check (b.toNat ≤ a.toNat) (a - b)

def mul (a b : UInt64) : Step UInt64 := check (a.toNat * b.toNat < UInt64.size) (a * b)

/-- The number that one more byte makes of the bytes before it, none of whose bits is lost. -/
def appendByte (n : UInt64) (b : UInt8) : Step UInt64 :=
  check (n.toNat * 256 + b.toNat < UInt64.size) (n <<< 8 ||| b.toUInt64)

/-- The bytes of a buffer from one place to another. -/
def slice (buffer : Bytes) (start stop : UInt64) : Step Bytes :=
  check (start.toNat ≤ stop.toNat ∧ stop.toNat ≤ buffer.length)
    ((buffer.drop start.toNat).take (stop.toNat - start.toNat))

/-! ## Steps -/

section

variable (buffer : Bytes) (limits : WordLimits)

/-- The number of bytes left. -/
def remaining : Step UInt64 := do sub (← word buffer.length) (← get)

def take (n : UInt64) : Step Bytes := do
  let left ← remaining buffer
  let start ← get
  if left < n then
    let needed ← sub n left
    refuse (.endOfInput start.toNat needed.toNat)
  else
    let stop ← add start n
    let bytes ← slice buffer start stop
    set stop
    return bytes

def skip (n : UInt64) : Step Unit := do
  let _ ← take buffer n

def byte : Step UInt8 := do
  match ← take buffer 1 with
  | b :: _ => return b
  | [] => throw .fault

def number (width : Nat) : Step UInt64 := do
  let bytes ← take buffer (← word width)
  bytes.foldlM appendByte 0

def count : Count → Step UInt64
  | .inTag n => word n
  | .wide width => number buffer width

def checkDepth (start level : UInt64) : Step Unit :=
  if limits.maxDepth ≤ level then
    refuse (.depthLimitExceeded start.toNat limits.maxDepth.toNat)
  else return ()

def checkRoom (start length width : UInt64) : Step Unit :=
  if limits.maxEntries < length then
    refuse (.containerTooLarge start.toNat length.toNat limits.maxEntries.toNat)
  else do
    let items ← mul length width
    let left ← remaining buffer
    if left < items then
      let needed ← sub items left
      refuse (.endOfInput (← get).toNat needed.toNat)
    else return ()

def container (start level length width : UInt64) : Step UInt64 := do
  checkDepth limits start level
  checkRoom buffer limits start length width
  mul length width

def header (level : UInt64) : Step UInt64 := do
  let start ← get
  let tag ← byte buffer
  match Format.ofByte tag with
  | .fixed payload => do skip buffer (← word payload); return 0
  | .string n => do skip buffer (← count buffer n); return 0
  | .binary n => do skip buffer (← count buffer n); return 0
  | .extension n => do skip buffer (← add (← count buffer n) 1); return 0
  | .array n => do container buffer limits start level (← count buffer n) 1
  | .map n => do container buffer limits start level (← count buffer n) 2
  | .reserved => refuse (.reservedType start.toNat tag)

/-- Counts one item as read and closes every container that this completes; `none` when nothing is
owed any more. -/
def close : List UInt64 → Step (Option (List UInt64))
  | [] => return none
  | owed :: outer => do
    let left ← sub owed 1
    if left = 0 then close outer else return some (left :: outer)

/-- Goes on with a walk over a value inside `level` open containers.  The containers of the value
owe the items `pending`, and at most `reads` headers are read. -/
def walk (level : UInt64) : (reads : Nat) → (pending : List UInt64) → Step Unit
  | 0, _ => throw .fault
  | reads + 1, pending => do
    let items ← header buffer limits (← add level (← word pending.length))
    if items = 0 then
      match ← close pending with
      | none => return ()
      | some pending => walk level reads pending
    else walk level reads (items :: pending)

def value (level : UInt64) : Step Bytes := do
  let start ← get
  walk buffer limits level (buffer.length - start.toNat + 1) []
  slice buffer start (← get)

def mapHeader : Step UInt64 := do
  let start ← get
  let tag ← byte buffer
  match Format.ofByte tag with
  | .map n => do
    let length ← count buffer n
    checkDepth limits start 0
    checkRoom buffer limits start length 2
    return length
  | _ => refuse (.notAMap tag)

def key : Step String := do
  let start ← get
  let tag ← byte buffer
  match Format.ofByte tag with
  | .string n => do
    let text ← take buffer (← count buffer n)
    match text.toString? with
    | some s => return s
    | none => refuse (.invalidKey start.toNat)
  | _ => refuse (.nonStringKey start.toNat tag)

/-! ## Sessions -/

def run : Call → Step Answer
  | .mapHeader => return .count (← mapHeader buffer limits).toNat
  | .key => return .key (← key buffer)
  | .value level => return .span (← value buffer limits level)

/-- What each of some calls comes to, up to the first one with a fault. -/
def outcomes (pos : UInt64) : List Call → List (Result Answer)
  | [] => []
  | call :: later =>
    match run buffer limits call pos with
    | .ok answer pos => .ok answer pos :: outcomes pos later
    | .error (.refused cause) pos => .error (.refused cause) pos :: outcomes pos later
    | .error .fault pos => [.error .fault pos]

end

end AtomicGroups.Wire.Checked
