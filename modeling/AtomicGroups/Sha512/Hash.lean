import AtomicGroups.Digest
import AtomicGroups.Sha512.Message

/-!
# SHA-512/256

`Sha512.hash256` is SHA-512 from an initial state of its own, cut to its first 256 bits.  Payloads
of different kinds are kept apart by hashing a short domain tag in front of them (`Sha512.tagged`).
-/

namespace AtomicGroups.Sha512

/-- The state that SHA-512/256 starts from. -/
def initial : State :=
  ⟨0x22312194fc2bf72c, 0x9f555fa3c84c64c2, 0x2393b86b6f53b151, 0x963877195940eabd,
    0x96283ee2a88effe3, 0xbe5e1e2553863992, 0x2b0199fc2c85b8aa, 0x0eb72ddc81c52ca2⟩

/-- The eight bytes of a word, most significant first. -/
def wordBytes (w : UInt64) : Bytes :=
  [(w >>> 56).toUInt8, (w >>> 48).toUInt8, (w >>> 40).toUInt8, (w >>> 32).toUInt8,
    (w >>> 24).toUInt8, (w >>> 16).toUInt8, (w >>> 8).toUInt8, w.toUInt8]

/-- The first four words of a state, which are the digest. -/
def State.digest (s : State) : Digest :=
  ⟨wordBytes s.a ++ wordBytes s.b ++ wordBytes s.c ++ wordBytes s.d, rfl⟩

def hash256 (m : Bytes) : Digest := (absorb initial (pad m)).digest

/-- The digest of a payload behind a domain tag. -/
def tagged (domain payload : Bytes) : Digest := hash256 (domain ++ payload)

end AtomicGroups.Sha512
