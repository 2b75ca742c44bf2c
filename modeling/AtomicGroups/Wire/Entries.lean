import AtomicGroups.Wire.Walk

/-!
# The outermost map

A record is one map whose keys are texts.  `Reader.mapHeader` reads its header and `Reader.key` one
of its keys; the values are left to `Reader.value`.
-/

namespace AtomicGroups.Wire.Reader

/-- Reads the header of the outermost map and gives the number of its entries. -/
def mapHeader (limits : Limits) : Reader Nat := do
  let start ← offset
  let tag ← byte
  match Format.ofByte tag with
  | .map n => do
    let length ← count n
    checkDepth limits start 0
    checkRoom limits start length (length * 2)
    return length
  | _ => throw (.notAMap tag)

/-- Reads a key. -/
def key : Reader String := do
  let start ← offset
  let tag ← byte
  match Format.ofByte tag with
  | .string n => do
    let text ← take (← count n)
    match text.toString? with
    | some s => return s
    | none => throw (.invalidKey start)
  | _ => throw (.nonStringKey start tag)

theorem forward_mapHeader (limits : Limits) : Forward (mapHeader limits) := by
  refine forward_offset.bind fun start => forward_byte.bind fun tag => ?_
  cases Format.ofByte tag with
  | map n =>
    exact (forward_count n).bind fun length => (forward_checkDepth _ _ _).bind fun _ =>
      (forward_checkRoom _ _ _ _).bind fun _ => .pure _
  | fixed | string | binary | extension | array | reserved => exact .throw _

theorem forward_key : Forward key := by
  refine forward_offset.bind fun start => forward_byte.bind fun tag => ?_
  cases Format.ofByte tag with
  | string n =>
    refine (forward_count n).bind fun length => (forward_take length).bind fun text => ?_
    cases Bytes.toString? text with
    | some s => exact .pure s
    | none => exact .throw _
  | fixed | map | binary | extension | array | reserved => exact .throw _

end AtomicGroups.Wire.Reader
