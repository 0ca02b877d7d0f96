/-!
# TOML values

A document is a table.  Tables come to be in different ways, and the way decides what may still be
added to them (`Origin`); a key is never given twice.
-/

namespace HistoryCache

namespace Toml

/-- How a table came to be. -/
inductive Origin where
  /-- By a header of its own. -/
  | header
  /-- By the header of a table inside it. -/
  | implied
  /-- By a dotted key. -/
  | dotted
  deriving DecidableEq, Inhabited

end Toml

inductive Toml where
  | string (s : String)
  | integer (n : Int)
  /-- A number with a fraction or an exponent, an infinity or no number, as it is written. -/
  | float (text : String)
  | boolean (b : Bool)
  /-- A date, a time of day or both, as it is written. -/
  | moment (text : String)
  | array (items : List Toml)
  /-- A table that is written as a value, and complete. -/
  | inline (members : List (String × Toml))
  | table (origin : Toml.Origin) (members : List (String × Toml))
  /-- An array of tables, each with a header, the last one first. -/
  | tables (elements : List (List (String × Toml)))
  deriving Inhabited

namespace Toml

/-- The members of a table. -/
abbrev Members := List (String × Toml)

/-- Gives a key a value in the place of the one that it has. -/
def Members.set (ms : Members) (key : String) (v : Toml) : Members :=
  ms.map fun (k, w) => if k = key then (k, v) else (k, w)

/-- Defines the table that a header names. -/
def openTable : List String → Members → Option Members
  | [], _ => none
  | [key], ms =>
    match ms.lookup key with
    | none => some (ms ++ [(key, .table .header [])])
    | some (.table .implied inner) => some (ms.set key (.table .header inner))
    | some _ => none
  | key :: path, ms =>
    match ms.lookup key with
    | none => do
      let inner ← openTable path []
      return ms ++ [(key, .table .implied inner)]
    | some (.table origin inner) => do
      let inner ← openTable path inner
      return ms.set key (.table origin inner)
    | some (.tables (last :: others)) => do
      let last ← openTable path last
      return ms.set key (.tables (last :: others))
    | some _ => none

/-- Adds a table to the array of tables that a header names. -/
def openElement : List String → Members → Option Members
  | [], _ => none
  | [key], ms =>
    match ms.lookup key with
    | none => some (ms ++ [(key, .tables [[]])])
    | some (.tables elements) => some (ms.set key (.tables ([] :: elements)))
    | some _ => none
  | key :: path, ms =>
    match ms.lookup key with
    | none => do
      let inner ← openElement path []
      return ms ++ [(key, .table .implied inner)]
    | some (.table origin inner) => do
      let inner ← openElement path inner
      return ms.set key (.table origin inner)
    | some (.tables (last :: others)) => do
      let last ← openElement path last
      return ms.set key (.tables (last :: others))
    | some _ => none

/-- Gives a dotted key a value.  `isOpen` tells whether the table at hand came to be by a dotted
key, as it has to if the key led there. -/
def addKey (v : Toml) (isOpen : Bool) : List String → Members → Option Members
  | [], _ => none
  | [key], ms => if isOpen ∧ (ms.lookup key).isNone then some (ms ++ [(key, v)]) else none
  | key :: path, ms =>
    match ms.lookup key with
    | none => do
      let inner ← addKey v true path []
      return ms ++ [(key, .table .dotted inner)]
    | some (.table origin inner) =>
      if origin = .header then none
      else do
        let inner ← addKey v (origin = .dotted) path inner
        return ms.set key (.table origin inner)
    | some (.tables (last :: others)) => do
      let last ← addKey v false path last
      return ms.set key (.tables (last :: others))
    | some _ => none

/-- Gives a dotted key a value in the table that a header opened. -/
def addAt (v : Toml) (key : List String) : List String → Members → Option Members
  | [], ms => addKey v true key ms
  | step :: path, ms =>
    match ms.lookup step with
    | some (.table origin inner) => do
      let inner ← addAt v key path inner
      return ms.set step (.table origin inner)
    | some (.tables (last :: others)) => do
      let last ← addAt v key path last
      return ms.set step (.tables (last :: others))
    | _ => none

end Toml

end HistoryCache
