import AtomicGroups.Wire.Entries

/-!
# Calls on a reader

A session is a list of calls on one reader.  A call that fails leaves the cursor where the failure
was found, and the next one goes on from there.
-/

namespace AtomicGroups.Wire

/-- A call on a reader. -/
inductive Call
  | mapHeader
  | key
  /-- Reads a value that lies inside `level` open containers. -/
  | value (level : UInt64)
deriving DecidableEq

/-- What a call gives when it succeeds. -/
inductive Answer
  | count (n : Nat)
  | key (s : String)
  | span (bytes : Bytes)
deriving DecidableEq

def Call.run (limits : Limits) : Call → Reader Answer
  | mapHeader => return .count (← Reader.mapHeader limits)
  | key => return .key (← Reader.key)
  | value level => return .span (← Reader.value limits level.toNat)

theorem Call.forward_run (limits : Limits) (call : Call) : Reader.Forward (call.run limits) := by
  cases call with
  | mapHeader => exact (Reader.forward_mapHeader limits).bind fun _ => .pure _
  | key => exact Reader.forward_key.bind fun _ => .pure _
  | value level => exact (Reader.forward_value limits level.toNat).bind fun _ => .pure _

/-- What each of some calls comes to. -/
def outcomes (limits : Limits) (c : Cursor) : List Call → List (Outcome Answer)
  | [] => []
  | call :: later =>
    let outcome := call.run limits c
    outcome :: outcomes limits (Outcome.cursor outcome) later

end AtomicGroups.Wire
