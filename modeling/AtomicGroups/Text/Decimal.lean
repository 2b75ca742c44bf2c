/-!
# Decimal numbers

Natural numbers as decimal digits, read up to a bound, and the bound of the numbers that are
accepted as limits and positions: those of 64 bits.  Reading stops at the first digit that takes the
number beyond the bound, so that a long row of digits costs no arithmetic on large numbers.  Main
statement: `digitsUpTo?_eq`, what is read is the number that the digits denote.
-/

namespace AtomicGroups.Text

/-- The greatest number of 64 bits. -/
def maxWord : Nat := 0xffff_ffff_ffff_ffff

/-- The number that one more digit makes of the digits before it. -/
def appendDigit (n : Nat) (c : Char) : Nat := n * 10 + (c.toNat - '0'.toNat)

/-- The number that a list of decimal digits denotes. -/
def digitsValue (ds : List Char) : Nat := ds.foldl appendDigit 0

/-- The number that a list of decimal digits denotes, if it is at most `max`. -/
def digitsUpTo? (max : Nat) (ds : List Char) : Option Nat :=
  ds.foldlM (fun n c => if appendDigit n c ≤ max then some (appendDigit n c) else none) 0

/-- The number up to `max` that one or more decimal digits, and nothing else, denote. -/
def naturalUpTo? (max : Nat) (cs : List Char) : Option Nat :=
  if cs ≠ [] ∧ cs.all Char.isDigit then digitsUpTo? max cs else none

/-- The number of at most 64 bits that a text denotes: one or more decimal digits behind one plus
sign or none. -/
def word? : List Char → Option Nat
  | '+' :: digits => naturalUpTo? maxWord digits
  | digits => naturalUpTo? maxWord digits

/-! ## Reading up to a bound -/

theorem le_foldl_appendDigit (ds : List Char) (n : Nat) : n ≤ ds.foldl appendDigit n := by
  induction ds generalizing n with
  | nil => exact Nat.le_refl n
  | cons c ds ih =>
    have step : n ≤ appendDigit n c := by unfold appendDigit; omega
    exact Nat.le_trans step (ih _)

theorem foldlM_appendDigit (max : Nat) (ds : List Char) (n : Nat) (h : n ≤ max) :
    ds.foldlM (fun n c => if appendDigit n c ≤ max then some (appendDigit n c) else none) n =
      if ds.foldl appendDigit n ≤ max then some (ds.foldl appendDigit n) else none := by
  induction ds generalizing n with
  | nil => simp [h]
  | cons c ds ih =>
    rw [List.foldlM_cons, List.foldl_cons]
    by_cases hc : appendDigit n c ≤ max
    · simpa [hc] using ih _ hc
    · have hd : ¬ds.foldl appendDigit (appendDigit n c) ≤ max := fun hle =>
        hc (Nat.le_trans (le_foldl_appendDigit ds _) hle)
      simp [hc, hd]

/-- Digits are read up to a bound exactly when the number that they denote does not exceed it. -/
theorem digitsUpTo?_eq (max : Nat) (ds : List Char) :
    digitsUpTo? max ds = if digitsValue ds ≤ max then some (digitsValue ds) else none :=
  foldlM_appendDigit max ds 0 (Nat.zero_le max)

end AtomicGroups.Text
