import HistoryCache.Word
import Std.Data.ExtTreeMap

/-!
# Timestamps

A timestamp is a second and a part of it.  Everything a history store decides it decides by the
second; the part only orders records inside one second.  The order is lexicographic, and `compare`,
`≤` and `<` agree with each other (`isLE_compare`, `lt_iff_not_le`).
-/

namespace HistoryCache

/-- A second, and nanoseconds that order what happens inside it.  Nothing bounds the nanoseconds:
a value outside `0 ≤ ns < 10 ^ 9` still belongs to its second. -/
structure Timestamp where
  sec : Int
  ns : Int
  deriving DecidableEq, Inhabited

namespace Timestamp

instance : LE Timestamp := ⟨fun a b => a.sec < b.sec ∨ a.sec = b.sec ∧ a.ns ≤ b.ns⟩

instance : LT Timestamp := ⟨fun a b => a.sec < b.sec ∨ a.sec = b.sec ∧ a.ns < b.ns⟩

instance (a b : Timestamp) : Decidable (a ≤ b) :=
  inferInstanceAs (Decidable (a.sec < b.sec ∨ a.sec = b.sec ∧ a.ns ≤ b.ns))

instance (a b : Timestamp) : Decidable (a < b) :=
  inferInstanceAs (Decidable (a.sec < b.sec ∨ a.sec = b.sec ∧ a.ns < b.ns))

theorem le_def {a b : Timestamp} : a ≤ b ↔ a.sec < b.sec ∨ a.sec = b.sec ∧ a.ns ≤ b.ns := Iff.rfl

theorem lt_def {a b : Timestamp} : a < b ↔ a.sec < b.sec ∨ a.sec = b.sec ∧ a.ns < b.ns := Iff.rfl

theorem le_refl (a : Timestamp) : a ≤ a := by rw [le_def]; omega

theorem le_trans {a b c : Timestamp} (h : a ≤ b) (k : b ≤ c) : a ≤ c := by
  rw [le_def] at *; omega

theorem le_total (a b : Timestamp) : a ≤ b ∨ b ≤ a := by simp only [le_def]; omega

theorem lt_iff_not_le {a b : Timestamp} : a < b ↔ ¬ b ≤ a := by
  rw [le_def, lt_def]; omega

theorem le_antisymm {a b : Timestamp} (h : a ≤ b) (k : b ≤ a) : a = b := by
  cases a; cases b; simp only [le_def, mk.injEq] at *; omega

/-- An earlier timestamp never lies in a later second. -/
theorem sec_le_of_le {a b : Timestamp} (h : a ≤ b) : a.sec ≤ b.sec := by
  rw [le_def] at h; omega

instance : Ord Timestamp := ⟨compareLex (compareOn sec) (compareOn ns)⟩

instance : Std.TransOrd Timestamp :=
  inferInstanceAs (Std.TransCmp (compareLex (compareOn sec) (compareOn ns)))

theorem compare_def (a b : Timestamp) :
    compare a b = (compare a.sec b.sec).then (compare a.ns b.ns) := rfl

instance : Std.LawfulEqOrd Timestamp where
  eq_of_compare {a b} h := by
    rw [compare_def, Ordering.then_eq_eq] at h
    cases a; cases b
    simpa using h

theorem isLE_compare {a b : Timestamp} : (compare a b).isLE ↔ a ≤ b := by
  rw [compare_def, le_def, Int.compare_eq_ite_lt, Int.compare_eq_ite_lt]
  split <;> split <;> (try split) <;> (try split) <;> simp_all <;> omega

/-- Timestamps from the earliest to the latest. -/
def sorted (ts : List Timestamp) : List Timestamp :=
  ts.mergeSort fun a b => decide (a ≤ b)

/-- Decimal digits filled with zeros to a width that the sign counts towards. -/
def padded (width : Nat) (n : Int) : String :=
  let sign := if n < 0 then "-" else ""
  let digits := toString n.natAbs
  sign ++ String.ofList (List.replicate (width - sign.length - digits.length) '0') ++ digits

/-- The second, a point, and the nanoseconds in nine places. -/
def text (t : Timestamp) : String := toString t.sec ++ "." ++ padded 9 t.ns

/-- The last second (2038-01-01 00:00:00 UTC) that is read for an item of which nothing is cached
yet. -/
def horizon : Int := 2145916800

end Timestamp

end HistoryCache
