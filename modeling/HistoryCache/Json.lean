/-!
# JSON values

A number is whole if it is written without a fraction and an exponent and has a place in 64 bits
with or without a sign; any other is a double-precision number, by its bits.
-/

namespace HistoryCache

inductive Json where
  | null
  | boolean (b : Bool)
  | integer (n : Int)
  | float (bits : UInt64)
  | string (s : String)
  | array (items : List Json)
  | object (members : List (String × Json))
  /-- A literal that is well formed and stands for nothing: a number beyond all double-precision
  numbers, a text with half a surrogate pair, or an object with such a text for a key. -/
  | meaningless
  deriving Inhabited

end HistoryCache
