import AtomicGroups.Error
import AtomicGroups.Record.Decoding

/-!
# Transactions and batches

A transaction is the encoding of a record, canonical or not, and a batch is a list of transactions.
-/

namespace AtomicGroups

/-- The encoding of one record, as it was received. -/
structure Transaction where
  bytes : Bytes
deriving DecidableEq, Inhabited

namespace Transaction

def record (limits : Limits) (tx : Transaction) : Except DecodeError Record :=
  Record.decode limits tx.bytes

/-- The digest that identifies a transaction. -/
def digest (limits : Limits) (tx : Transaction) : Except DecodeError Digest :=
  Record.digest <$> tx.record limits

/-- A transaction named as such, for people to read. -/
def describe (tx : Transaction) : String := s!"EncodedTransaction({tx.bytes.length} bytes)"

end Transaction

/-- The canonical transaction of a record. -/
def Record.toTransaction (r : Record) : Transaction := ⟨r.encode⟩

/-- A list of transactions, in order. -/
abbrev Batch := List Transaction

namespace Batch

/-- The record of the transaction at the given position of a batch. -/
def recordAt (limits : Limits) (position : Nat) (tx : Transaction) : Except BatchError Record :=
  (tx.record limits).mapError (.malformed position)

/-- The records of a batch, or the first position that has none. -/
def records (limits : Limits) (batch : Batch) : Except BatchError (List Record) :=
  batch.zipIdx.mapM fun (tx, position) => recordAt limits position tx

end Batch

end AtomicGroups
