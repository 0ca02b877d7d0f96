/-!
# Numbers with a fixed number of decimals

A double-precision number, given by its bits, is `m · 2 ^ e` exactly.  It is rounded to the nearest
decimal with so many places; of two that are equally near, the one with an even last digit is taken.
-/

namespace HistoryCache.Text

/-- The quotient of two numbers rounded to the nearest whole one, a half to the even neighbour. -/
def roundDiv (num den : Nat) : Nat :=
  let q := num / den
  let r := num % den
  if den < 2 * r ∨ 2 * r = den ∧ q % 2 = 1 then q + 1 else q

/-- The mantissa and the exponent of a finite double-precision number without its sign. -/
def binary (bits : UInt64) : Nat × Int :=
  let fraction := (bits &&& 0xfffffffffffff).toNat
  let exponent := ((bits >>> 52) &&& 0x7ff).toNat
  if exponent = 0 then (fraction, -1074) else (1 <<< 52 + fraction, (exponent : Int) - 1075)

/-- A whole number of units of the last of `places` decimals. -/
def pointed (places n : Nat) : String :=
  let digits := toString (n % Nat.pow 10 places)
  let zeros := String.ofList (List.replicate (places - digits.length) '0')
  toString (n / Nat.pow 10 places) ++ (if places = 0 then "" else "." ++ zeros ++ digits)

/-- A finite double-precision number with so many decimals. -/
def fixed (places : Nat) (bits : UInt64) : String :=
  let (m, e) := binary bits
  let n :=
    if 0 ≤ e then (m <<< e.toNat) * Nat.pow 10 places
    else roundDiv (m * Nat.pow 10 places) (1 <<< (-e).toNat)
  (if bits >>> 63 = 1 then "-" else "") ++ pointed places n

end HistoryCache.Text
