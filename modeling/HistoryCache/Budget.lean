/-!
# The memory budget

The cache is given a number of bytes and charges every item entry, chunk, log value and pooled text
to it before it keeps one.  A charge that does not fit is refused and leaves the budget as it was
(`tryCharge`); that refusal is what the cache calls out of memory.
-/

namespace HistoryCache

/-- A budget of `total` bytes, `used` of them charged by `allocations` live charges. -/
structure Budget where
  total : Nat
  used : Nat := 0
  allocations : Nat := 0
  /-- The most that was ever in use. -/
  highWatermark : Nat := 0
  /-- Charges refused for want of room. -/
  refused : Nat := 0
  deriving DecidableEq, Inhabited

namespace Budget

/-- Bytes charged for an allocation beside its size. -/
def overhead : Nat := 16

/-- Bytes that are not in use. -/
def free (b : Budget) : Nat := b.total - b.used

/-- Whether an allocation of `size` bytes has room. -/
def Fits (b : Budget) (size : Nat) : Prop := b.used + (size + overhead) ≤ b.total

instance (b : Budget) (size : Nat) : Decidable (b.Fits size) :=
  inferInstanceAs (Decidable (_ ≤ _))

/-- Takes an allocation of `size` bytes into account. -/
def charge (b : Budget) (size : Nat) : Budget :=
  let used := b.used + (size + overhead)
  { b with
    used := used
    allocations := b.allocations + 1
    highWatermark := max b.highWatermark used }

/-- Charges an allocation of `size` bytes if it has room, and counts the refusal otherwise. -/
def tryCharge (b : Budget) (size : Nat) : Bool × Budget :=
  if b.Fits size then (true, b.charge size) else (false, { b with refused := b.refused + 1 })

/-- Gives back an allocation of `size` bytes.  More than what is in use is never given back. -/
def refund (b : Budget) (size : Nat) : Budget :=
  { b with used := b.used - (size + overhead), allocations := b.allocations - 1 }

/-- The used part of the whole, from 0 to 1; 0 for a budget of nothing. -/
def usageRatio (b : Budget) : Float :=
  if b.total = 0 then 0 else b.used.toUInt64.toFloat / b.total.toUInt64.toFloat

theorem tryCharge_of_fits {b : Budget} {size : Nat} (h : b.Fits size) :
    b.tryCharge size = (true, b.charge size) := if_pos h

theorem tryCharge_of_not_fits {b : Budget} {size : Nat} (h : ¬ b.Fits size) :
    b.tryCharge size = (false, { b with refused := b.refused + 1 }) := if_neg h

end Budget

end HistoryCache
