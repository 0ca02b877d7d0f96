import HistoryCache.Json
import HistoryCache.Text.Decimal

/-!
# JSON numbers

A number with a fraction or an exponent, or too large for 64 bits, is read in two steps.  As many of
its digits as have a place in 64 bits form a whole number, the further digits count for their places
only; that number is then scaled by a power of ten.  Both steps round to double precision, so the
result may be a neighbour of the nearest one.
-/

namespace HistoryCache.Json

/-- A number as it is written. -/
structure Numeral where
  negative : Bool
  whole : List Char
  fraction : List Char
  /-- Whether the exponent is negative, and its digits. -/
  exponent : Option (Bool × List Char)

namespace Numeral

/-- Digits and the rest. -/
def digits (cs : List Char) : List Char × List Char :=
  (cs.takeWhile Char.isDigit, cs.dropWhile Char.isDigit)

/-- The digits before the point: a lone zero, or digits that start with another. -/
def whole? (cs : List Char) : Option (List Char × List Char) :=
  match digits cs with
  | ([], _) => none
  | ('0' :: _ :: _, _) => none
  | other => some other

/-- The point and the digits after it, if there is a point. -/
def fraction? : List Char → Option (List Char × List Char)
  | '.' :: cs =>
    match digits cs with
    | ([], _) => none
    | other => some other
  | cs => some ([], cs)

/-- The exponent, if there is one. -/
def exponent? (cs : List Char) : Option (Option (Bool × List Char) × List Char) :=
  let signed (negative : Bool) (cs : List Char) :=
    match digits cs with
    | ([], _) => none
    | (ds, rest) => some (some (negative, ds), rest)
  let after : List Char → Option (Option (Bool × List Char) × List Char)
    | '-' :: cs => signed true cs
    | '+' :: cs => signed false cs
    | cs => signed false cs
  match cs with
  | 'e' :: cs | 'E' :: cs => after cs
  | cs => some (none, cs)

/-- Reads a number. -/
def read? (cs : List Char) : Option (Numeral × List Char) := do
  let (negative, cs) := match cs with
    | '-' :: cs => (true, cs)
    | cs => (false, cs)
  let (whole, cs) ← whole? cs
  let (fraction, cs) ← fraction? cs
  let (exponent, cs) ← exponent? cs
  return (⟨negative, whole, fraction, exponent⟩, cs)

/-- Takes digits into a number as long as it has a place in 64 bits; the digits that are left over
are returned too. -/
def accumulate (n : Nat) : List Char → Nat × List Char
  | [] => (n, [])
  | c :: cs =>
    let m := 10 * n + Text.digitValue c
    if m < 1 <<< 64 then accumulate m cs else (n, c :: cs)

/-- `f · 10 ^ exponent`, or nothing if that is beyond all double-precision numbers.  A power beyond
`10 ^ 308` is taken in parts. -/
def scale? (f : Float) (exponent : Int) : Option Float :=
  if f == 0 then some f
  else if 308 < exponent then none
  else if 0 ≤ exponent then
    let g := f * Float.ofScientific 1 false exponent.toNat
    if g.isInf then none else some g
  else if -308 ≤ exponent then some (f / Float.ofScientific 1 false (-exponent).toNat)
  else scale? (f / Float.ofScientific 1 false 308) (exponent + 308)
  termination_by (-exponent).toNat
  decreasing_by omega

/-- The largest exponent that is told from any other. -/
def maxExponent : Nat := 2147483647

/-- The magnitude of a number, or nothing if it is beyond all double-precision numbers. -/
def magnitude? (n : Numeral) : Option Float :=
  let (m, dropped) := accumulate 0 n.whole
  let (m, ignored) := accumulate m n.fraction
  let places : Int := dropped.length - (n.fraction.length - ignored.length)
  match n.exponent with
  | none => scale? m.toUInt64.toFloat places
  | some (negative, ds) =>
    let e := Text.ofDigits ds
    if maxExponent < e then
      if m ≠ 0 ∧ !negative then none else some 0
    else scale? m.toUInt64.toFloat (if negative then places - e else places + e)

/-- The value of a number. -/
def value (n : Numeral) : Json :=
  let i : Int := if n.negative then -(Text.ofDigits n.whole : Int) else Text.ofDigits n.whole
  let isWhole := n.fraction.isEmpty && n.exponent.isNone
  if isWhole && (Text.inInt64 i || Text.inUInt64 i) && !(n.negative && i == 0) then .integer i
  else
    match n.magnitude? with
    | some f => .float (if n.negative then -f else f).toBits
    | none => .meaningless

end Numeral

end HistoryCache.Json
