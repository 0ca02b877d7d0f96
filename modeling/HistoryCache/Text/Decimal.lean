/-!
# Whole numbers in decimal digits

Only the ASCII digits count as digits, and there must be at least one.
-/

namespace HistoryCache.Text

/-- The value of a digit. -/
def digitValue (c : Char) : Nat := c.toNat - '0'.toNat

/-- The number that digits stand for, the highest first. -/
def ofDigits (cs : List Char) : Nat := cs.foldl (fun n c => 10 * n + digitValue c) 0

/-- A number written in digits. -/
def natural? (cs : List Char) : Option Nat :=
  if cs ≠ [] ∧ cs.all Char.isDigit then some (ofDigits cs) else none

/-- A number in digits that may have a plus sign before them. -/
def unsigned? : List Char → Option Nat
  | '+' :: cs => natural? cs
  | cs => natural? cs

/-- A number in digits that may have a sign before them. -/
def signed? : List Char → Option Int
  | '-' :: cs => (natural? cs).map fun n => -(n : Int)
  | cs => (unsigned? cs).map fun n => (n : Int)

/-- Whether a number has a place in 64 bits with a sign. -/
def inInt64 (n : Int) : Bool := decide (-9223372036854775808 ≤ n ∧ n < 9223372036854775808)

/-- Whether a number has a place in 32 bits with a sign. -/
def inInt32 (n : Int) : Bool := decide (-2147483648 ≤ n ∧ n < 2147483648)

/-- Whether a number has a place in 64 bits without a sign. -/
def inUInt64 (n : Int) : Bool := decide (0 ≤ n ∧ n < 18446744073709551616)

end HistoryCache.Text
