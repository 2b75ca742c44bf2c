import Mathlib.Logic.Function.Basic
import AtomicGroups.Sha512.Hasher

/-!
# Sessions

A session is a list of calls on hashers that are kept in numbered places.  `answers` makes the calls
one after the other.  What a hasher was fed can be told from the calls alone (`fedTo`): only those
that were made on its own place count, and up to a copy those on the place it was copied from.
-/

namespace AtomicGroups.Sha512

/-- A call on the hasher in a place. -/
inductive Call
  /-- Puts a new hasher there. -/
  | start (place : Nat) (domain : Bytes)
  | update (place : Nat) (piece : Bytes)
  | reset (place : Nat)
  /-- Puts a copy in another place. -/
  | clone (place copy : Nat)
  | digest (place : Nat)
deriving DecidableEq

/-- Hashers by place. -/
abbrev Hashers := Nat → Option Hasher

namespace Call

/-- The hashers after a call. -/
def run (hashers : Hashers) : Call → Hashers
  | start place domain => Function.update hashers place (some (.start domain))
  | update place piece => Function.update hashers place ((hashers place).map (·.update piece))
  | reset place => Function.update hashers place ((hashers place).map Hasher.reset)
  | clone place copy => Function.update hashers copy (hashers place)
  | digest _ => hashers

/-- The digest that a call gives, if it asks for one. -/
def answer (hashers : Hashers) : Call → Option Digest
  | digest place => (hashers place).map Hasher.digest
  | _ => none

end Call

/-- What each of some calls gives. -/
def answers (hashers : Hashers) : List Call → List (Option Digest)
  | [] => []
  | call :: later => call.answer hashers :: answers (call.run hashers) later

/-! ## What was fed -/

/-- What a hasher is fed: its domain tag and then pieces. -/
structure Fed where
  domain : Bytes
  pieces : List Bytes

/-- What the hasher in a place has been fed since it was made or reset, if there is one.  The calls
are those so far, with the last one in front. -/
def fedTo : List Call → Nat → Option Fed
  | [], _ => none
  | .start p domain :: before, place => if place = p then some ⟨domain, []⟩ else fedTo before place
  | .update p piece :: before, place =>
    if place = p then (fedTo before p).map fun f => { f with pieces := f.pieces ++ [piece] }
    else fedTo before place
  | .reset p :: before, place =>
    if place = p then (fedTo before p).map fun f => { f with pieces := [] }
    else fedTo before place
  | .clone p copy :: before, place => if place = copy then fedTo before p else fedTo before place
  | .digest _ :: before, place => fedTo before place

end AtomicGroups.Sha512
