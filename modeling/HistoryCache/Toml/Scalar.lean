import HistoryCache.Text.Decimal
import HistoryCache.Text.Hex
import HistoryCache.Toml

/-!
# TOML numbers, booleans and moments

A scalar is a run of letters, digits and a few signs.  What it is shows from its form alone.
-/

namespace HistoryCache.Toml

/-- Digits that may be parted by single underscores. -/
def parted? (isDigit : Char → Bool) (cs : List Char) : Option (List Char) :=
  let rec go : List Char → Option (List Char)
    | [] => some []
    | ['_'] => none
    | '_' :: c :: cs => if isDigit c then (go cs).map (c :: ·) else none
    | c :: cs => if isDigit c then (go cs).map (c :: ·) else none
  match cs with
  | [] | '_' :: _ => none
  | cs => go cs

/-- Digits of a decimal number, without a leading zero. -/
def decimal? (cs : List Char) : Option (List Char) :=
  match parted? Char.isDigit cs with
  | some ('0' :: _ :: _) => none
  | other => other

/-- A number in a base other than ten. -/
def based? (base : Nat) (cs : List Char) : Option Nat := do
  let ds ← parted? (fun c => (Text.hexValue? c).any (· < base)) cs
  return ds.foldl (fun n c => base * n + (Text.hexValue? c).getD 0) 0

/-- Takes a sign away. -/
def unsign : List Char → Bool × List Char
  | '+' :: cs => (false, cs)
  | '-' :: cs => (true, cs)
  | cs => (false, cs)

/-- A whole number, in 64 bits with a sign. -/
def integer? (cs : List Char) : Option Int := do
  let n ← match cs with
    | '0' :: 'x' :: cs => (based? 16 cs).map Int.ofNat
    | '0' :: 'o' :: cs => (based? 8 cs).map Int.ofNat
    | '0' :: 'b' :: cs => (based? 2 cs).map Int.ofNat
    | cs =>
      let (negative, cs) := unsign cs
      (decimal? cs).map fun ds =>
        if negative then -(Text.ofDigits ds : Int) else Text.ofDigits ds
  if Text.inInt64 n then some n else none

/-- A text parted at the first character of a class, which is left out. -/
def splitAt? (p : Char → Bool) (cs : List Char) : Option (List Char × List Char) :=
  match cs.dropWhile fun c => !p c with
  | _ :: rest => some (cs.takeWhile fun c => !p c, rest)
  | [] => none

/-- The exponent of a number. -/
def exponent? (cs : List Char) : Option Int :=
  let (negative, cs) := unsign cs
  (parted? Char.isDigit cs).map fun ds =>
    if negative then -(Text.ofDigits ds : Int) else Text.ofDigits ds

/-- The digits of a number with a fraction or an exponent, without its sign, and the power of ten
that they are multiplied by. -/
def scaled? (cs : List Char) : Option (List Char × Int) := do
  let (mantissa, exponent) ←
    match splitAt? (fun c => c = 'e' || c = 'E') cs with
    | some (mantissa, e) => do pure (mantissa, ← exponent? e)
    | none => if cs.contains '.' then some (cs, 0) else none
  match splitAt? (· = '.') mantissa with
  | some (whole, fraction) => do
    let fraction ← parted? Char.isDigit fraction
    return ((← decimal? whole) ++ fraction, exponent - fraction.length)
  | none => return (← decimal? mantissa, exponent)

/-- The least number that is nearer to infinity than to any double-precision number, or as near. -/
def infiniteFrom : Nat := (1 <<< 54 - 1) <<< 970

/-- Whether digits times a power of ten are infinite in double precision. -/
def isInfinite (ds : List Char) (exponent : Int) : Bool :=
  let n := Text.ofDigits ds
  if n = 0 then false
  else if exponent < 0 then
    decide ((-exponent).toNat ≤ ds.length) && decide (infiniteFrom * Nat.pow 10 (-exponent).toNat ≤ n)
  else decide (309 ≤ exponent) || decide (infiniteFrom ≤ n * Nat.pow 10 exponent.toNat)

/-- Whether a text is a number with a fraction or an exponent, an infinity or no number.  Infinity
has a name, so a number that is too large does not stand for it; one that is too low does. -/
def isFloat (cs : List Char) : Bool :=
  let (negative, cs) := unsign cs
  if cs = "inf".toList ∨ cs = "nan".toList then true
  else
    match scaled? cs with
    | some (ds, exponent) => negative || !isInfinite ds exponent
    | none => false

/-! ## Moments -/

/-- A number of just so many digits. -/
def fixedDigits? (n : Nat) (cs : List Char) : Option Nat :=
  if cs.length = n then Text.natural? cs else none

def isLeap (year : Nat) : Bool := year % 4 = 0 && (year % 100 ≠ 0 || year % 400 = 0)

def daysIn (year month : Nat) : Nat :=
  if month = 2 then if isLeap year then 29 else 28
  else if month = 4 ∨ month = 6 ∨ month = 9 ∨ month = 11 then 30
  else 31

/-- Whether a text is a date. -/
def isDate : List Char → Bool
  | [a, b, c, d, '-', e, f, '-', g, h] =>
    match fixedDigits? 4 [a, b, c, d], fixedDigits? 2 [e, f], fixedDigits? 2 [g, h] with
    | some year, some month, some day =>
      decide (1 ≤ month ∧ month ≤ 12 ∧ 1 ≤ day ∧ day ≤ daysIn year month)
    | _, _, _ => false
  | _ => false

/-- Whether a text is an hour and a minute. -/
def isHourMinute : List Char → Bool
  | [a, b, ':', c, d] =>
    (fixedDigits? 2 [a, b]).any (· < 24) && (fixedDigits? 2 [c, d]).any (· < 60)
  | _ => false

/-- Whether a text is a time of day. -/
def isTime (cs : List Char) : Bool :=
  isHourMinute (cs.take 5) &&
    match cs.drop 5 with
    | ':' :: a :: b :: rest =>
      (fixedDigits? 2 [a, b]).any (· ≤ 60) &&
        match rest with
        | [] => true
        | '.' :: fraction => (Text.natural? fraction).isSome
        | _ => false
    | _ => false

/-- Whether a text is a time of day that may be followed by its offset. -/
def isOffsetTime (cs : List Char) : Bool :=
  let time := cs.takeWhile fun c => c.isDigit || c = ':' || c = '.'
  isTime time &&
    match cs.dropWhile fun c => c.isDigit || c = ':' || c = '.' with
    | [] | ['Z'] | ['z'] => true
    | '+' :: offset | '-' :: offset => isHourMinute offset
    | _ => false

/-- Whether a text is a date, a time of day, or a date and a time with a letter or a space
between. -/
def isMoment (cs : List Char) : Bool :=
  isDate cs || isTime cs ||
    isDate (cs.take 10) &&
      match cs.drop 10 with
      | c :: time => (c = 'T' || c = 't' || c = ' ') && isOffsetTime time
      | [] => false

/-- Reads a scalar. -/
def scalar? (cs : List Char) : Option Toml :=
  if cs = "true".toList then some (.boolean true)
  else if cs = "false".toList then some (.boolean false)
  else
    match integer? cs with
    | some n => some (.integer n)
    | none =>
      if isFloat cs then some (.float (String.ofList cs))
      else if isMoment cs then some (.moment (String.ofList cs))
      else none

/-- Whether a character may stand in a scalar. -/
def isScalarChar (c : Char) : Bool :=
  c.isAlphanum || c == '+' || c == '-' || c == '_' || c == '.' || c == ':'

/-- The run of characters of a scalar, which goes across one space between a date and a time. -/
def scalarRun (cs : List Char) : List Char × List Char :=
  let run := cs.takeWhile isScalarChar
  match cs.dropWhile isScalarChar with
  | ' ' :: c :: rest =>
    if isDate run && c.isDigit then
      (run ++ ' ' :: (c :: rest).takeWhile isScalarChar, (c :: rest).dropWhile isScalarChar)
    else (run, ' ' :: c :: rest)
  | rest => (run, rest)

end HistoryCache.Toml
