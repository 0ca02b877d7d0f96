import HistoryCache.Failure
import HistoryCache.Text.Blank
import HistoryCache.Text.Decimal

/-!
# Sizes

A size is written as a number of bytes, or with one of the letters K, M, G and T for a power of
1024.  Blanks may stand around the number and around the whole.  A size has 64 bits and never
wraps: a number or a product that is too large is refused.
-/

namespace HistoryCache.Size

/-- What is wrong with a text that is no size. -/
inductive Fault where
  /-- The text ends with a letter that stands for nothing. -/
  | unknownSuffix
  | notANumber
  | overflow
  deriving DecidableEq, Inhabited

def Fault.message : Fault → String
  | unknownSuffix => "unknown size suffix"
  | notANumber => "not a number"
  | overflow => "size overflows"

/-- The number that a letter, in either case, multiplies by. -/
def factor? (c : Char) : Option Nat :=
  match c.toUpper with
  | 'K' => some (1 <<< 10)
  | 'M' => some (1 <<< 20)
  | 'G' => some (1 <<< 30)
  | 'T' => some (1 <<< 40)
  | _ => none

/-- The number of units, times a factor. -/
def scale (digits : List Char) (factor : Nat) : Except Fault Nat :=
  match Text.unsigned? (Text.trimBlanks digits) with
  | none => .error .notANumber
  | some n =>
    if 1 <<< 64 ≤ n then .error .notANumber
    else if 1 <<< 64 ≤ n * factor then .error .overflow
    else .ok (n * factor)

/-- Reads the characters of a size. -/
def ofChars (input : List Char) : Except Fault Nat :=
  let cs := Text.trimBlanks input
  match cs.getLast? with
  | none => scale [] 1
  | some c =>
    if c.isAlpha then
      match factor? c with
      | some factor => scale cs.dropLast factor
      | none => .error .unknownSuffix
    else scale cs 1

/-- Reads a size. -/
def parse (input : String) : Except ConfigFailure Nat :=
  match ofChars input.toList with
  | .ok n => .ok n
  | .error fault => .error (.invalidFormat "size" (fault.message ++ ": '" ++ input ++ "'"))

end HistoryCache.Size
