/-!
# Decoding limits

What a decoder agrees to read: how deep containers may nest and how many entries one may announce.
-/

namespace AtomicGroups

/-- Bounds on the containers of one record. -/
structure Limits where
  /-- The number of containers, the record itself included, that may be open at once. -/
  maxDepth : Nat := 16
  /-- The number of entries that one container may announce. -/
  maxEntries : Nat := 65536
deriving DecidableEq, Inhabited

end AtomicGroups
