/-!
# Integer square roots

The largest number whose square is not above a given one, found bit by bit from the highest.
-/

namespace HistoryCache

/-- Sets the lowest `k` bits of a root, the highest first, where the square stays at or below
`n`. -/
def rootBits (n : Nat) : Nat → Nat → Nat
  | 0, r => r
  | k + 1, r =>
    let s := r + 1 <<< k
    rootBits n k (if s * s ≤ n then s else r)

/-- The largest number whose square is not above `n`. -/
def squareRoot (n : Nat) : Nat := rootBits n (n.log2 / 2 + 1) 0

theorem rootBits_sq_le {n : Nat} (k : Nat) {r : Nat} (h : r * r ≤ n) :
    rootBits n k r * rootBits n k r ≤ n := by
  induction k generalizing r with
  | zero => exact h
  | succ k ih =>
    rw [rootBits]
    split
    · exact ih ‹_›
    · exact ih h

theorem lt_rootBits_succ_sq {n : Nat} (k : Nat) {r : Nat}
    (h : n < (r + 1 <<< k) * (r + 1 <<< k)) :
    n < (rootBits n k r + 1) * (rootBits n k r + 1) := by
  induction k generalizing r with
  | zero => exact h
  | succ k ih =>
    rw [Nat.shiftLeft_succ, Nat.two_mul, ← Nat.add_assoc] at h
    rw [rootBits]
    split
    · exact ih h
    · exact ih (Nat.lt_of_not_le ‹_›)

/-- The square of the root is not above the number. -/
theorem squareRoot_sq_le (n : Nat) : squareRoot n * squareRoot n ≤ n :=
  rootBits_sq_le _ (Nat.zero_le n)

/-- The square of the next number is. -/
theorem lt_squareRoot_succ_sq (n : Nat) : n < (squareRoot n + 1) * (squareRoot n + 1) := by
  apply lt_rootBits_succ_sq
  have h : n < 1 <<< (n.log2 + 1) := by
    rw [Nat.one_shiftLeft]
    exact Nat.lt_log2_self
  apply Nat.lt_of_lt_of_le h
  rw [Nat.zero_add, Nat.one_shiftLeft, Nat.one_shiftLeft, ← Nat.pow_add]
  apply Nat.pow_le_pow_right (by decide)
  omega

end HistoryCache
