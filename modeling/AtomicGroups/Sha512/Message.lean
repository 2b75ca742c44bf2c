import AtomicGroups.Sha512.Compression

/-!
# Blocks and padding

A message is hashed in blocks of 128 bytes.  `blocks` are the whole blocks at the front of a byte
string and `leftover` is what follows them, so that the two together are the byte string again
(`flatten_blocks_append_leftover`).  `pad` makes the length of a message a multiple of the block
size.
-/

namespace AtomicGroups.Sha512

def blockSize : Nat := 128

/-- The whole blocks at the front of a byte string. -/
def blocks (m : Bytes) : List Bytes :=
  if (m.take blockSize).length < blockSize then []
  else m.take blockSize :: blocks (m.drop blockSize)
termination_by m.length
decreasing_by
  simp_all only [List.length_take, List.length_drop, blockSize]
  omega

/-- What follows the whole blocks. -/
def leftover (m : Bytes) : Bytes :=
  if (m.take blockSize).length < blockSize then m else leftover (m.drop blockSize)
termination_by m.length
decreasing_by
  simp_all only [List.length_take, List.length_drop, blockSize]
  omega

/-- Takes every whole block of a byte string into the state. -/
def absorb (s : State) (m : Bytes) : State := (blocks m).foldl compress s

/-- The bytes that follow a message of the given length: a one bit, zeros up to sixteen bytes before
the end of a block, and the length in bits. -/
def padding (length : Nat) : Bytes :=
  0x80 :: (List.replicate ((239 - length % blockSize) % blockSize) 0 ++ Bytes.ofNat 16 (8 * length))

/-- A message followed by its padding. -/
def pad (m : Bytes) : Bytes := m ++ padding m.length

/-! ## Lemmas -/

theorem blocks_of_lt {m : Bytes} (h : m.length < blockSize) : blocks m = [] := by
  rw [blocks, if_pos (Nat.lt_of_le_of_lt (List.length_take_le' _ m) h)]

theorem blocks_append {b : Bytes} (h : b.length = blockSize) (m : Bytes) :
    blocks (b ++ m) = b :: blocks m := by
  rw [blocks]
  simp [← h]

theorem leftover_append {b : Bytes} (h : b.length = blockSize) (m : Bytes) :
    leftover (b ++ m) = leftover m := by
  rw [leftover]
  simp [← h]

/-- Nothing is lost in cutting a byte string into blocks. -/
theorem flatten_blocks_append_leftover (m : Bytes) : (blocks m).flatten ++ leftover m = m := by
  fun_induction blocks m with
  | case1 m h => rw [leftover, if_pos h]; rfl
  | case2 m h ih =>
    rw [leftover, if_neg h, List.flatten_cons, List.append_assoc, ih]
    exact List.take_append_drop _ m

/-- Blocks may be taken in two goes: what the first leaves over is put before the second. -/
theorem absorb_append (s : State) (m n : Bytes) :
    absorb s (m ++ n) = absorb (absorb s m) (leftover m ++ n) := by
  fun_induction blocks m generalizing s with
  | case1 m h =>
    have hm : blocks m = [] := by rw [blocks]; exact if_pos h
    have hl : leftover m = m := by rw [leftover, if_pos h]
    rw [hl, absorb, absorb, absorb, hm]
    rfl
  | case2 m h ih =>
    have hlen : (m.take blockSize).length = blockSize := by
      have := List.length_take_le blockSize m
      omega
    have hm : m = m.take blockSize ++ m.drop blockSize := (List.take_append_drop _ m).symm
    have hstep : ∀ n,
        absorb s (m.take blockSize ++ n) = absorb (compress s (m.take blockSize)) n := by
      intro n
      rw [absorb, blocks_append hlen]
      rfl
    rw [hm, leftover_append hlen, List.append_assoc, hstep, hstep]
    exact ih _

theorem length_leftover_lt (m : Bytes) : (leftover m).length < blockSize := by
  fun_induction leftover m with
  | case1 m h =>
    rw [List.length_take, blockSize] at h
    rw [blockSize]
    omega
  | case2 m h ih => exact ih

theorem leftover_append_leftover (m n : Bytes) :
    leftover (m ++ n) = leftover (leftover m ++ n) := by
  fun_induction leftover m with
  | case1 m h => rfl
  | case2 m h ih =>
    have hlen : (m.take blockSize).length = blockSize := by
      have := List.length_take_le blockSize m
      omega
    conv => lhs; rw [← List.take_append_drop blockSize m, List.append_assoc, leftover_append hlen]
    exact ih

end AtomicGroups.Sha512
