import HistoryCache.Text.Hex

/-!
# TOML strings

There are basic strings, in double quotes and with escapes, and literal strings, in single quotes
and without; both also in a form of several lines with three quotes on either side.  `written`
chooses the form that needs the fewest escapes.
-/

namespace HistoryCache.Toml

/-- Whether a character may stand in a string or a comment as it is. -/
def isPlain (c : Char) : Bool := c == '\t' || 0x20 ≤ c.val && c.val ≠ 0x7f

/-- Takes a line break away. -/
def newline? : List Char → Option (List Char)
  | '\n' :: cs => some cs
  | '\r' :: '\n' :: cs => some cs
  | _ => none

def isSpace (c : Char) : Bool := c == ' ' || c == '\t'

/-- Takes spaces and line breaks away. -/
def skipLines : List Char → List Char
  | ' ' :: cs | '\t' :: cs | '\n' :: cs => skipLines cs
  | '\r' :: '\n' :: cs => skipLines cs
  | cs => cs

/-- The character that an escape stands for, after its backslash. -/
def escape? : List Char → Option (Char × List Char)
  | 'b' :: cs => some ('\x08', cs)
  | 't' :: cs => some ('\t', cs)
  | 'n' :: cs => some ('\n', cs)
  | 'f' :: cs => some ('\x0c', cs)
  | 'r' :: cs => some ('\r', cs)
  | '"' :: cs => some ('"', cs)
  | '\\' :: cs => some ('\\', cs)
  | 'u' :: cs => numbered 4 cs
  | 'U' :: cs => numbered 8 cs
  | _ => none
where
  /-- A character by its number in so many digits. -/
  numbered (n : Nat) (cs : List Char) : Option (Char × List Char) := do
    if (cs.take n).length < n then none
    else return (← Text.scalar? (← Text.hex? (cs.take n)), cs.drop n)

/-- A basic string after its opening quote, of not more than so many characters. -/
def basic? : Nat → List Char → Option (List Char × List Char)
  | 0, _ | _ + 1, [] => none
  | _ + 1, '"' :: cs => some ([], cs)
  | n + 1, '\\' :: cs => do
    let (c, cs) ← escape? cs
    let (s, cs) ← basic? n cs
    return (c :: s, cs)
  | n + 1, c :: cs => do
    if isPlain c then
      let (s, cs) ← basic? n cs
      return (c :: s, cs)
    else none

/-- A literal string after its opening quote. -/
def literal? (cs : List Char) : Option (List Char × List Char) :=
  let s := cs.takeWhile (· ≠ '\'')
  match cs.dropWhile (· ≠ '\'') with
  | _ :: rest => if s.all isPlain then some (s, rest) else none
  | [] => none

/-- The end of a string of several lines, where a quote stands: three quotes end it, and up to two
before them belong to it.  Fewer than three quotes are a part of it. -/
def closing (quote : Char) (cs : List Char) : Option (List Char × Bool × List Char) :=
  let n := (cs.takeWhile (· = quote)).length
  let rest := cs.dropWhile (· = quote)
  if n < 3 then some (List.replicate n quote, false, rest)
  else if n ≤ 5 then some (List.replicate (n - 3) quote, true, rest)
  else none

/-- A string of several lines after its opening quotes, of not more than so many characters. -/
def lines? (quote : Char) : Nat → List Char → Option (List Char × List Char)
  | 0, _ | _ + 1, [] => none
  | n + 1, c :: cs =>
    if c = quote then do
      let (quotes, ended, rest) ← closing quote (c :: cs)
      if ended then return (quotes, rest)
      else
        let (s, rest) ← lines? quote n rest
        return (quotes ++ s, rest)
    else if c = '\\' ∧ quote = '"' then
      match newline? (cs.dropWhile isSpace) with
      | some rest => lines? quote n (skipLines rest)
      | none => do
        let (c, cs) ← escape? cs
        let (s, cs) ← lines? quote n cs
        return (c :: s, cs)
    else
      match newline? (c :: cs) with
      | some rest => do
        let (s, rest) ← lines? quote n rest
        return ('\n' :: s, rest)
      | none => do
        if isPlain c then
          let (s, cs) ← lines? quote n cs
          return (c :: s, cs)
        else none

/-- A string of one line. -/
def line? : List Char → Option (String × List Char)
  | '"' :: cs => do
    let (s, rest) ← basic? (cs.length + 1) cs
    return (String.ofList s, rest)
  | '\'' :: cs => do
    let (s, rest) ← literal? cs
    return (String.ofList s, rest)
  | _ => none

/-- A string of any form. -/
def string? : List Char → Option (String × List Char)
  | '"' :: '"' :: '"' :: cs => multiple '"' cs
  | '\'' :: '\'' :: '\'' :: cs => multiple '\'' cs
  | cs => line? cs
where
  /-- A string of several lines; a line break right after its opening quotes is not a part of it. -/
  multiple (quote : Char) (cs : List Char) : Option (String × List Char) := do
    let (s, rest) ← lines? quote (cs.length + 1) ((newline? cs).getD cs)
    return (String.ofList s, rest)

/-! ## Writing -/

/-- The largest number of quotes that follow each other. -/
def longestRun (quote : Char) (s : List Char) : Nat :=
  (s.foldl (fun (longest, run) c =>
    if c = quote then (max longest (run + 1), run + 1) else (longest, 0)) (0, 0)).1

/-- Four hexadecimal digits in upper case. -/
def fourDigits (n : Nat) : String :=
  let ds := (Nat.toDigits 16 n).map Char.toUpper
  String.ofList (List.replicate (4 - ds.length) '0' ++ ds)

/-- A string with escapes, without the quotes around it.  `run` counts the double quotes just
before, of which not more than `quotes` may stand together. -/
def escaped (quotes : Nat) (multiline : Bool) : (run : Nat) → List Char → String
  | _, [] => ""
  | run, c :: cs =>
    if c = '"' then
      if quotes ≤ run then "\\\"" ++ escaped quotes multiline 0 cs
      else "\"" ++ escaped quotes multiline (run + 1) cs
    else
      (if c = '\x08' then "\\b"
      else if c = '\t' then "\\t"
      else if c = '\n' then if multiline then "\n" else "\\n"
      else if c = '\x0c' then "\\f"
      else if c = '\r' then "\\r"
      else if c = '\\' then "\\\\"
      else if c.val < 0x20 ∨ c.val = 0x7f then "\\u" ++ fourDigits c.toNat
      else c.toString) ++ escaped quotes multiline 0 cs

/-- A string as it is written: in double quotes if nothing in it needs an escape, else in single
quotes if it has none, else in three quotes, and with escapes only if it must be. -/
def written (s : String) : String :=
  let cs := s.toList
  let controls := cs.any fun c => c ≠ '\t' ∧ c ≠ '\n' ∧ !isPlain c
  let backslash := cs.contains '\\'
  let lines := cs.contains '\n'
  let doubles := longestRun '"' cs
  let singles := longestRun '\'' cs
  let start := if lines then "\n" else ""
  if !controls && !backslash && doubles == 0 && !lines then
    "\"" ++ escaped 0 false 0 cs ++ "\""
  else if !controls && singles == 0 && !lines then "'" ++ s ++ "'"
  else if !controls && !backslash && doubles ≤ 2 then
    "\"\"\"" ++ start ++ escaped 2 true 0 cs ++ "\"\"\""
  else if !controls && singles ≤ 2 then "'''" ++ start ++ s ++ "'''"
  else if lines then "\"\"\"" ++ start ++ escaped 2 true 0 cs ++ "\"\"\""
  else "\"" ++ escaped 0 false 0 cs ++ "\""

end HistoryCache.Toml
