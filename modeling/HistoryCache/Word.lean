/-!
# Numbers of 64 bits

Times and ranges are numbers of 64 bits with a sign, counts are such numbers without one.  What does not
fit goes on from the other end.  A sum is wrapped once, at its end: addition commutes with taking
remainders, so wrapping after each of its steps gives the same.
-/

namespace HistoryCache

/-- A number that 64 bits with a sign can hold. -/
def Fits64 (n : Int) : Prop := -9223372036854775808 ≤ n ∧ n < 9223372036854775808

instance (n : Int) : Decidable (Fits64 n) := inferInstanceAs (Decidable (_ ∧ _))

/-- What 64 bits with a sign hold of a number. -/
def wrap (n : Int) : Int := n.bmod 18446744073709551616

theorem wrap_eq {n : Int} (h : Fits64 n) : wrap n = n := by
  rw [Fits64] at h
  rw [wrap, Int.bmod_eq_of_le] <;> omega

/-- The largest count. -/
def maxCount : Nat := 18446744073709551615

/-- The count after another; there is none after the largest, and it starts again. -/
def following (n : Nat) : Nat := if n < maxCount then n + 1 else 0

theorem following_eq {n : Nat} (h : n < maxCount) : following n = n + 1 := if_pos h

end HistoryCache
