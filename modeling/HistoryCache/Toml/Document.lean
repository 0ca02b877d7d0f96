import HistoryCache.Toml.Quoted
import HistoryCache.Toml.Scalar

/-!
# TOML documents

A document is a sequence of lines, each a key with its value, the header of a table, or nothing; a
comment may end it.
-/

namespace HistoryCache.Toml

def skipSpaces (cs : List Char) : List Char := cs.dropWhile isSpace

/-- Takes a comment away, if there is one. -/
def comment? : List Char → Option (List Char)
  | '#' :: cs => some (cs.dropWhile isPlain)
  | cs => some cs

/-- Takes the rest of a line away, which must hold nothing more than a comment. -/
def endOfLine? (cs : List Char) : Option (List Char) := do
  match ← comment? (skipSpaces cs) with
  | [] => return []
  | cs => newline? cs

/-- Takes spaces, comments and line breaks away, of not more than so many lines. -/
def skipTrivia : Nat → List Char → List Char
  | 0, cs => cs
  | n + 1, cs =>
    let cs := skipSpaces cs
    match cs with
    | '#' :: _ =>
      match newline? (cs.dropWhile isPlain) with
      | some rest => skipTrivia n rest
      | none => cs
    | cs =>
      match newline? cs with
      | some rest => skipTrivia n rest
      | none => cs

/-- Whether a character may stand in a key without quotes. -/
def isKeyChar (c : Char) : Bool := c.isAlphanum || c == '-' || c == '_'

/-- One part of a key. -/
def simpleKey? (cs : List Char) : Option (String × List Char) :=
  match cs with
  | '"' :: _ | '\'' :: _ => line? cs
  | cs =>
    let key := cs.takeWhile isKeyChar
    if key.isEmpty then none else some (String.ofList key, cs.dropWhile isKeyChar)

/-- The most levels that the values of a document are nested to, and the most parts of a key. -/
def maxDepth : Nat := 79

/-- A key of not more than so many parts. -/
def key? : Nat → List Char → Option (List String × List Char)
  | 0, _ => none
  | n + 1, cs => do
    let (part, cs) ← simpleKey? (skipSpaces cs)
    match skipSpaces cs with
    | '.' :: cs => do
      let (parts, cs) ← key? n cs
      return (part :: parts, cs)
    | cs => return ([part], cs)

mutual

/-- A value that takes not more than so many steps and opens not more than `depth` levels. -/
def value? : Nat → (depth : Nat) → List Char → Option (Toml × List Char)
  | 0, _, _ => none
  | n + 1, depth, cs =>
    match cs, depth with
    | '"' :: _, _ | '\'' :: _, _ => do
      let (s, cs) ← string? cs
      return (.string s, cs)
    | '[' :: _, 0 | '\x7b' :: _, 0 => none
    | '[' :: cs, depth + 1 => do
      let (items, cs) ← items? n depth cs
      return (.array items, cs)
    | '\x7b' :: cs, depth + 1 =>
      match skipSpaces cs with
      | '\x7d' :: cs => some (.inline [], cs)
      | cs => do
        let (members, cs) ← members? n depth [] cs
        return (.inline members, cs)
    | cs, _ => do
      let (run, cs) := scalarRun cs
      return (← scalar? run, cs)

/-- The items of an array, as far as its closing bracket. -/
def items? : Nat → (depth : Nat) → List Char → Option (List Toml × List Char)
  | 0, _, _ => none
  | n + 1, depth, cs =>
    match skipTrivia (cs.length + 1) cs with
    | ']' :: cs => some ([], cs)
    | cs => do
      let (item, cs) ← value? n depth cs
      match skipTrivia (cs.length + 1) cs with
      | ',' :: cs => do
        let (items, cs) ← items? n depth cs
        return (item :: items, cs)
      | ']' :: cs => some ([item], cs)
      | _ => none

/-- The members of an inline table, as far as its closing brace, added to those that it has. -/
def members? : Nat → (depth : Nat) → Members → List Char → Option (Members × List Char)
  | 0, _, _, _ => none
  | n + 1, depth, ms, cs => do
    let (key, cs) ← key? maxDepth cs
    match skipSpaces cs with
    | '=' :: cs => do
      let (v, cs) ← value? n depth (skipSpaces cs)
      let ms ← addKey v true key ms
      match skipSpaces cs with
      | ',' :: cs => members? n depth ms cs
      | '\x7d' :: cs => some (ms, cs)
      | _ => none
    | _ => none

end

/-- The key of a header, as far as its closing bracket. -/
def header? (cs : List Char) : Option (List String × List Char) := do
  match ← key? maxDepth cs with
  | (path, ']' :: cs) => return (path, cs)
  | _ => none

/-- Not more than so many lines, added to what the lines before them defined.  `path` leads to the
table of the last header. -/
def lines : Nat → List String → Members → List Char → Option Members
  | 0, _, _, _ => none
  | n + 1, path, ms, cs =>
    match skipSpaces cs with
    | [] => some ms
    | '[' :: '[' :: cs => do
      let (path, cs) ← header? cs
      match cs with
      | ']' :: cs => lines n path (← openElement path ms) (← endOfLine? cs)
      | _ => none
    | '[' :: cs => do
      let (path, cs) ← header? cs
      lines n path (← openTable path ms) (← endOfLine? cs)
    | cs =>
      match endOfLine? cs with
      | some rest => lines n path ms rest
      | none => do
        let (key, cs) ← key? maxDepth cs
        match skipSpaces cs with
        | '=' :: cs => do
          let (v, cs) ← value? (cs.length + 1) maxDepth (skipSpaces cs)
          lines n path (← addAt v key path ms) (← endOfLine? cs)
        | _ => none

/-- Takes a byte order mark away. -/
def skipMark : List Char → List Char
  | '\ufeff' :: cs => cs
  | cs => cs

/-- Reads a document. -/
def document? (s : String) : Option Members :=
  let cs := skipMark s.toList
  lines (cs.length + 1) [] [] cs

end HistoryCache.Toml
