import HistoryCache.Config
import HistoryCache.Json.Reader

/-!
# JSON forms of the domain

A structure is an object with a member for each field, whose order is free, or an array of the
fields in their order.  Members of other names are passed over; one that is named twice is an
error.  A value is an object with one member, named for its kind.
-/

namespace HistoryCache

namespace Json

def int? (fits : Int → Bool) : Json → Option Int
  | .integer n => if fits n then some n else none
  | _ => none

def asString? : Json → Option String
  | .string s => some s
  | _ => none

/-- A text that may be missing. -/
def optional? : Option Json → Option (Option String)
  | none | some .null => some none
  | some (.string s) => some (some s)
  | some _ => none

/-- The member of a name, if there is one; nothing at all if there are more. -/
def member? (members : List (String × Json)) (name : String) : Option (Option Json) :=
  match members.filter fun m => decide (m.1 = name) with
  | [] => some none
  | [(_, j)] => some (some j)
  | _ => none

/-- The fields of a structure with these names, in their order. -/
def fields? (names : List String) : Json → Option (List (Option Json))
  | .object members => names.mapM (member? members)
  | .array items =>
    if items.length ≤ names.length then
      some (items.map some ++ List.replicate (names.length - items.length) none)
    else none
  | _ => none

end Json

open Json

namespace Timestamp

def ofJson? (j : Json) : Option Timestamp := do
  match ← fields? ["sec", "ns"] j with
  | [some sec, some ns] => return ⟨← int? Text.inInt64 sec, ← int? Text.inInt32 ns⟩
  | _ => none

def toJson (t : Timestamp) : Json := .object [("sec", .integer t.sec), ("ns", .integer t.ns)]

end Timestamp

namespace Kind

/-- A kind by its name, or as an object that has the name for its only key and nothing for a
value. -/
def ofJson? : Json → Option Kind
  | .string s => ofName? s
  | .object [(s, .null)] => ofName? s
  | _ => none

def toJson (k : Kind) : Json := .string k.name

end Kind

namespace LogEntry

def ofJson? (j : Json) : Option LogEntry := do
  match ← fields? ["timestamp", "logeventid", "severity", "source", "value"] j with
  | [some timestamp, some eventId, some severity, source, some value] =>
    return {
      timestamp := ← int? Text.inInt64 timestamp
      eventId := ← int? Text.inInt32 eventId
      severity := ← int? Text.inInt32 severity
      source := ← optional? source
      value := ← asString? value }
  | _ => none

def toJson (e : LogEntry) : Json := .object [
  ("timestamp", .integer e.timestamp), ("logeventid", .integer e.eventId),
  ("severity", .integer e.severity), ("source", e.source.elim .null .string),
  ("value", .string e.value)]

end LogEntry

namespace Value

/-- A number of any form, in double precision. -/
def floatBits? : Json → Option UInt64
  | .float bits => some bits
  | .integer n =>
    let f := n.natAbs.toUInt64.toFloat
    some (if n < 0 then -f else f).toBits
  | _ => none

def ofJson? : Json → Option Value
  | .object [("Float", j)] => (floatBits? j).map .float
  | .object [("Str", j)] => (asString? j).map .str
  | .object [("Log", j)] => (LogEntry.ofJson? j).map .log
  | .object [("Uint", j)] => (int? Text.inUInt64 j).map fun n => .uint n.toNat.toUInt64
  | .object [("Text", j)] => (asString? j).map .text
  | _ => none

def toJson (v : Value) : Json :=
  .object [(v.kind.label,
    match v with
    | .float bits => .float bits
    | .str s | .text s => .string s
    | .log entry => entry.toJson
    | .uint n => .integer n.toNat)]

end Value

namespace Record

def ofJson? (j : Json) : Option Record := do
  match ← fields? ["timestamp", "value"] j with
  | [some time, some value] => return ⟨← Timestamp.ofJson? time, ← Value.ofJson? value⟩
  | _ => none

def toJson (r : Record) : Json :=
  .object [("timestamp", r.time.toJson), ("value", r.value.toJson)]

end Record

namespace ItemRecord

def ofJson? (j : Json) : Option ItemRecord := do
  match ← fields? ["itemid", "record"] j with
  | [some item, some record] =>
    return ⟨(← int? Text.inUInt64 item).toNat, ← Record.ofJson? record⟩
  | _ => none

def toJson (w : ItemRecord) : Json :=
  .object [("itemid", .integer w.item), ("record", w.record.toJson)]

end ItemRecord

namespace Config

/-- The names of the settings where a configuration is written, in their order. -/
def names : List String :=
  ["size", "item_expire_period", "low_memory_warning_period", "low_memory_reset_period",
    "log_level"]

/-- A size as a number of bytes or as a text. -/
def sizeOfJson? : Json → Option Nat
  | .integer n => if Text.inUInt64 n then some n.toNat else none
  | .string s => (Size.parse s).toOption
  | _ => none

/-- A configuration, with the defaults for what is not said. -/
def ofJson? (j : Json) : Option Config := do
  let base : Config := {}
  let read {α : Type} (f : Json → Option α) (otherwise : α) : Option Json → Option α
    | some j => f j
    | none => some otherwise
  match ← fields? names j with
  | [size, expire, warning, reset, level] =>
    return {
      size := ← read sizeOfJson? base.size size
      itemExpirePeriod := ← read (int? Text.inInt64) base.itemExpirePeriod expire
      lowMemoryWarningPeriod := ← read (int? Text.inInt64) base.lowMemoryWarningPeriod warning
      lowMemoryResetPeriod := ← read (int? Text.inInt64) base.lowMemoryResetPeriod reset
      logLevel := ← read asString? base.logLevel level }
  | _ => none

def toJson (c : Config) : Json :=
  .object (names.zip [.integer c.size, .integer c.itemExpirePeriod,
    .integer c.lowMemoryWarningPeriod, .integer c.lowMemoryResetPeriod, .string c.logLevel])

end Config

end HistoryCache
