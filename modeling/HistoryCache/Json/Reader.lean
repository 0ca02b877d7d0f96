import HistoryCache.Json.Number
import HistoryCache.Text.Hex

/-!
# Reading JSON

A text is one value with blanks around it, where a blank is a space, a tab, a line feed or a
carriage return.  The nesting of values is bounded by the length of the text.
-/

namespace HistoryCache.Json

def isBlank (c : Char) : Bool := c == ' ' || c == '\t' || c == '\n' || c == '\r'

def skipBlanks (cs : List Char) : List Char := cs.dropWhile isBlank

/-- The characters that a backslash and one more character stand for. -/
def escape? : Char → Option Char
  | '"' => some '"'
  | '\\' => some '\\'
  | '/' => some '/'
  | 'b' => some '\x08'
  | 'f' => some '\x0c'
  | 'n' => some '\n'
  | 'r' => some '\r'
  | 't' => some '\t'
  | _ => none

/-- A text after its opening quote, of not more than so many characters.  It is `none` inside if it
holds half a surrogate pair. -/
def text? : Nat → List Char → Option (Option (List Char) × List Char)
  | 0, _ => none
  | _ + 1, [] => none
  | _ + 1, '"' :: cs => some (some [], cs)
  | n + 1, '\\' :: 'u' :: a :: b :: c :: d :: cs => do
    let high ← Text.hex? [a, b, c, d]
    let go (x : Option Char) (cs : List Char) := do
      let (s, cs) ← text? n cs
      return (return (← x) :: (← s), cs)
    if Text.isHighSurrogate high then
      match cs with
      | '\\' :: 'u' :: e :: f :: g :: h :: rest =>
        let low ← Text.hex? [e, f, g, h]
        if Text.isLowSurrogate low then go (some (Text.pairedScalar high low)) rest else go none cs
      | _ => go none cs
    else go (Text.scalar? high) cs
  | n + 1, '\\' :: c :: cs => do
    let c ← escape? c
    let (s, cs) ← text? n cs
    return (s.map (c :: ·), cs)
  | n + 1, c :: cs => do
    if c.val < 0x20 then none
    else
      let (s, cs) ← text? n cs
      return (s.map (c :: ·), cs)

/-- A text with what it stands for. -/
def string? (cs : List Char) : Option (Option String × List Char) := do
  let (s, cs) ← text? (cs.length + 1) cs
  return (s.map String.ofList, cs)

mutual

/-- A value that is nested to not more than so many levels. -/
def value? : Nat → List Char → Option (Json × List Char)
  | 0, _ => none
  | n + 1, cs =>
    match skipBlanks cs with
    | 'n' :: 'u' :: 'l' :: 'l' :: cs => some (.null, cs)
    | 't' :: 'r' :: 'u' :: 'e' :: cs => some (.boolean true, cs)
    | 'f' :: 'a' :: 'l' :: 's' :: 'e' :: cs => some (.boolean false, cs)
    | '"' :: cs => do
      let (s, cs) ← string? cs
      return (s.elim .meaningless .string, cs)
    | '[' :: cs =>
      match skipBlanks cs with
      | ']' :: cs => some (.array [], cs)
      | cs => do
        let (items, cs) ← items? n cs
        return (.array items, cs)
    | '{' :: cs =>
      match skipBlanks cs with
      | '}' :: cs => some (.object [], cs)
      | cs => do
        let (members, cs) ← members? n cs
        return (members.elim .meaningless .object, cs)
    | cs => do
      let (numeral, cs) ← Numeral.read? cs
      return (numeral.value, cs)

/-- The items of an array, as far as its closing bracket. -/
def items? : Nat → List Char → Option (List Json × List Char)
  | 0, _ => none
  | n + 1, cs => do
    let (item, cs) ← value? n cs
    match skipBlanks cs with
    | ',' :: cs => do
      let (items, cs) ← items? n cs
      return (item :: items, cs)
    | ']' :: cs => some ([item], cs)
    | _ => none

/-- The members of an object, as far as its closing brace.  They are `none` inside if a key stands
for nothing. -/
def members? : Nat → List Char → Option (Option (List (String × Json)) × List Char)
  | 0, _ => none
  | n + 1, cs =>
    match skipBlanks cs with
    | '"' :: cs => do
      let (key, cs) ← string? cs
      match skipBlanks cs with
      | ':' :: cs => do
        let (item, cs) ← value? n cs
        let member := key.map (·, item)
        match skipBlanks cs with
        | ',' :: cs => do
          let (members, cs) ← members? n cs
          return (return (← member) :: (← members), cs)
        | '}' :: cs => some (member.map ([·]), cs)
        | _ => none
      | _ => none
    | _ => none

end

/-- Reads a text. -/
def read? (s : String) : Option Json := do
  let (j, cs) ← value? (2 * s.length + 2) s.toList
  if (skipBlanks cs).isEmpty then some j else none

end HistoryCache.Json
