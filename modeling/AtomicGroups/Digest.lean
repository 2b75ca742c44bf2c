import AtomicGroups.Bytes

/-!
# Digests

A digest is a byte string of exactly 32 bytes.  The all-zero digest stands for "no group": a record
that claims it claims nothing.
-/

namespace AtomicGroups

/-- A 32-byte digest. -/
structure Digest where
  bytes : Bytes
  length_bytes : bytes.length = 32
deriving DecidableEq

namespace Digest

/-- The digest with the given bytes, if there are exactly 32 of them. -/
def ofBytes? (bs : Bytes) : Option Digest :=
  if h : bs.length = 32 then some ⟨bs, h⟩ else none

/-- The all-zero digest, which means that no group is claimed. -/
def zero : Digest := ⟨List.replicate 32 0, List.length_replicate⟩

instance : Inhabited Digest := ⟨zero⟩

def isZero (d : Digest) : Bool := d = zero

/-- The 64 hexadecimal digits of a digest. -/
def hex (d : Digest) : String := d.bytes.hex

/-- Digests are ordered by their bytes, from the first. -/
instance : Ord Digest := ⟨compareOn bytes⟩

/-- A digest named as such, for people to read. -/
def describe (d : Digest) : String := s!"Digest({d.hex})"

@[ext] theorem ext {d e : Digest} (h : d.bytes = e.bytes) : d = e := by
  cases d; cases e; cases h; rfl

@[simp] theorem isZero_iff {d : Digest} : d.isZero = true ↔ d = zero := by simp [isZero]

theorem ofBytes?_eq_some_iff {bs : Bytes} {d : Digest} : ofBytes? bs = some d ↔ bs = d.bytes := by
  unfold ofBytes?
  constructor
  · intro h
    split at h
    · obtain rfl := Option.some.inj h
      rfl
    · cases h
  · rintro rfl
    rw [dif_pos d.length_bytes]

@[simp] theorem ofBytes?_bytes (d : Digest) : ofBytes? d.bytes = some d :=
  ofBytes?_eq_some_iff.2 rfl

end Digest

end AtomicGroups
