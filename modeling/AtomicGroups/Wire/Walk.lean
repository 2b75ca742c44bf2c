import AtomicGroups.Limits
import AtomicGroups.Wire.Cursor
import AtomicGroups.Wire.Format

/-!
# Walking over a value

Where a value ends is found without recursion, so that nesting costs no stack: a `Walk` counts the
items that each open container still owes, reads one header at a time, and closes every container
whose last item was read.  A header takes at least one byte (`consuming_header`), so a walk ends
within the input.
-/

namespace AtomicGroups.Wire

namespace Reader

/-! ## Headers -/

/-- The count that a header gives. -/
def count : Count → Reader Nat
  | .inTag n => return n
  | .wide width => number width

/-- Fails if a container that starts at `start` would lie inside as many open ones as are
allowed. -/
def checkDepth (limits : Limits) (start level : Nat) : Reader Unit :=
  if limits.maxDepth ≤ level then throw (.depthLimitExceeded start limits.maxDepth) else return ()

/-- Fails if a container announces too many entries, or more items than bytes are left: every item
takes at least one byte. -/
def checkRoom (limits : Limits) (start length items : Nat) : Reader Unit := fun c =>
  if limits.maxEntries < length then
    .error (.containerTooLarge start length limits.maxEntries) c
  else if c.remaining < items then .error (.endOfInput c.offset (items - c.remaining)) c
  else .ok () c

/-- Opens a container of `length` entries of `width` items each and gives the number of its
items. -/
def container (limits : Limits) (start level length width : Nat) : Reader Nat := do
  checkDepth limits start level
  checkRoom limits start length (length * width)
  return length * width

/-- Reads the header of a value inside `level` open containers, and the payload of a value that is
no container.  The result is the number of items that the header announces. -/
def header (limits : Limits) (level : Nat) : Reader Nat := do
  let start ← offset
  let tag ← byte
  match Format.ofByte tag with
  | .fixed payload => do skip payload; return 0
  | .string n => do skip (← count n); return 0
  | .binary n => do skip (← count n); return 0
  | .extension n => do skip ((← count n) + 1); return 0
  | .array n => do container limits start level (← count n) 1
  | .map n => do container limits start level (← count n) 2
  | .reserved => throw (.reservedType start tag)

theorem forward_count (n : Count) : Forward (count n) := by
  cases n with
  | inTag n => exact .pure n
  | wide width => exact forward_number width

theorem forward_checkDepth (limits : Limits) (start level : Nat) :
    Forward (checkDepth limits start level) := by
  unfold checkDepth
  split
  · exact .throw _
  · exact .pure _

theorem forward_checkRoom (limits : Limits) (start length items : Nat) :
    Forward (checkRoom limits start length items) := by
  intro c
  unfold checkRoom
  split
  · exact .refl c
  · split <;> exact .refl c

theorem forward_container (limits : Limits) (start level length width : Nat) :
    Forward (container limits start level length width) :=
  (forward_checkDepth _ _ _).bind fun _ => (forward_checkRoom _ _ _ _).bind fun _ => .pure _

theorem consuming_header (limits : Limits) (level : Nat) : Consuming (header limits level) := by
  refine .after forward_offset fun start => consuming_byte.bind fun tag => ?_
  cases Format.ofByte tag with
  | fixed payload => exact (forward_skip _).bind fun _ => .pure _
  | string n => exact (forward_count n).bind fun _ => (forward_skip _).bind fun _ => .pure _
  | binary n => exact (forward_count n).bind fun _ => (forward_skip _).bind fun _ => .pure _
  | extension n => exact (forward_count n).bind fun _ => (forward_skip _).bind fun _ => .pure _
  | array n => exact (forward_count n).bind fun _ => forward_container _ _ _ _ _
  | map n => exact (forward_count n).bind fun _ => forward_container _ _ _ _ _
  | reserved => exact .throw _

theorem forward_header (limits : Limits) (level : Nat) : Forward (header limits level) := by
  refine forward_offset.bind fun start => forward_byte.bind fun tag => ?_
  cases Format.ofByte tag with
  | fixed payload => exact (forward_skip _).bind fun _ => .pure _
  | string n => exact (forward_count n).bind fun _ => (forward_skip _).bind fun _ => .pure _
  | binary n => exact (forward_count n).bind fun _ => (forward_skip _).bind fun _ => .pure _
  | extension n => exact (forward_count n).bind fun _ => (forward_skip _).bind fun _ => .pure _
  | array n => exact (forward_count n).bind fun _ => forward_container _ _ _ _ _
  | map n => exact (forward_count n).bind fun _ => forward_container _ _ _ _ _
  | reserved => exact .throw _

end Reader

/-! ## Walks -/

/-- A walk over a value that is not complete yet. -/
structure Walk where
  /-- The number of containers open around the next item. -/
  level : Nat
  /-- The items still owed by each container of the value, the innermost first. -/
  pending : List Nat
deriving DecidableEq

namespace Walk

/-- The walk over a value inside `level` open containers, before its first byte. -/
def start (level : Nat) : Walk := ⟨level, []⟩

/-- Opens a container that owes a positive number of items. -/
def descend (w : Walk) (items : Nat) : Walk := ⟨w.level + 1, items :: w.pending⟩

/-- Counts one item as read and closes every container that this completes; `none` when nothing is
owed any more. -/
def settle : (level : Nat) → (pending : List Nat) → Option Walk
  | _, [] => none
  | level, owed :: outer =>
    if owed ≤ 1 then settle (level - 1) outer else some ⟨level, (owed - 1) :: outer⟩

/-- Reads one header; `none` when the value is complete. -/
def step (limits : Limits) (w : Walk) : Reader (Option Walk) := do
  let items ← Reader.header limits w.level
  return if items = 0 then settle w.level w.pending else some (w.descend items)

theorem consuming_step (limits : Limits) (w : Walk) : Reader.Consuming (w.step limits) :=
  (Reader.consuming_header _ _).bind fun _ => .pure _

theorem forward_step (limits : Limits) (w : Walk) : Reader.Forward (w.step limits) :=
  (Reader.forward_header _ _).bind fun _ => .pure _

/-- Goes on with a walk until the value is complete. -/
def run (limits : Limits) (w : Walk) (c : Cursor) : Outcome Unit :=
  match h : w.step limits c with
  | .ok none c' => .ok () c'
  | .ok (some w') c' =>
    have : c'.remaining < c.remaining := consuming_step limits w c _ c' h
    run limits w' c'
  | .error e c' => .error e c'
termination_by c.remaining

theorem forward_run (limits : Limits) (w : Walk) : Reader.Forward (w.run limits) := by
  intro c
  fun_induction run limits w c with
  | case1 w c c' h =>
    have := forward_step limits w c
    rwa [h] at this
  | case2 w c w' c' h _ ih =>
    have := forward_step limits w c
    rw [h] at this
    exact Cursor.Leads.trans this ih
  | case3 w c e c' h =>
    have := forward_step limits w c
    rwa [h] at this

end Walk

/-- The bytes of the next value, which lies inside `level` open containers. -/
def Reader.value (limits : Limits) (level : Nat) : Reader Bytes :=
  Reader.spanned ((Walk.start level).run limits)

theorem Reader.forward_value (limits : Limits) (level : Nat) :
    Reader.Forward (value limits level) :=
  (Walk.forward_run limits _).spanned

end AtomicGroups.Wire
