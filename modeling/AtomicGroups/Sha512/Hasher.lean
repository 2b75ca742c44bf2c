import AtomicGroups.Sha512.Hash

/-!
# Hashing in pieces

A `Hasher` is fed a message piece by piece, behind a domain tag.  It keeps the state after the whole
blocks so far and the bytes that do not fill a block yet.  `Hasher.fed` is what a hasher holds in
terms of the bytes it was fed, and `Hasher.digest_fed` says that its digest is that of those bytes.
-/

namespace AtomicGroups.Sha512

/-- A hash of a message that is still arriving. -/
structure Hasher where
  /-- The tag that the message starts with. -/
  domain : Bytes
  /-- The state after the whole blocks so far. -/
  state : State
  /-- The bytes after them. -/
  pending : Bytes
  /-- The number of bytes fed. -/
  size : Nat
deriving DecidableEq

namespace Hasher

/-- A hasher that was fed exactly the bytes `m`. -/
def fed (domain m : Bytes) : Hasher :=
  { domain, state := absorb initial m, pending := leftover m, size := m.length }

/-- Feeds the next piece of the message. -/
def update (h : Hasher) (piece : Bytes) : Hasher :=
  let bytes := h.pending ++ piece
  { h with
    state := absorb h.state bytes
    pending := leftover bytes
    size := h.size + piece.length }

/-- A hasher that was fed its domain tag and nothing else. -/
def start (domain : Bytes) : Hasher :=
  { domain, state := initial, pending := [], size := 0 : Hasher }.update domain

/-- Forgets all but the domain tag. -/
def reset (h : Hasher) : Hasher := start h.domain

/-- The digest of what was fed; the hasher may be fed more. -/
def digest (h : Hasher) : Digest := (absorb h.state (h.pending ++ padding h.size)).digest

/-! ## What a hasher holds -/

@[simp] theorem start_eq_fed (domain : Bytes) : start domain = fed domain domain := by
  simp [start, update, fed]

@[simp] theorem update_fed (domain m piece : Bytes) :
    (fed domain m).update piece = fed domain (m ++ piece) := by
  simp only [update, fed, ← absorb_append, ← leftover_append_leftover, List.length_append]

@[simp] theorem reset_eq_fed (h : Hasher) : h.reset = fed h.domain h.domain := start_eq_fed _

/-- The digest of a hasher is that of the bytes it was fed. -/
@[simp] theorem digest_fed (domain m : Bytes) : (fed domain m).digest = hash256 m := by
  rw [hash256, pad, absorb_append]
  rfl

end Hasher

/-- The tagged hash is the digest of a hasher that is fed the tag and then the payload. -/
theorem tagged_eq_hasher (domain payload : Bytes) :
    tagged domain payload = (((Hasher.start []).update domain).update payload).digest := by
  rw [Hasher.start_eq_fed, Hasher.update_fed, Hasher.update_fed, Hasher.digest_fed]
  rfl

end AtomicGroups.Sha512
