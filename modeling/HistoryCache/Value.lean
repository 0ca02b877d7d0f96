import HistoryCache.Timestamp

/-!
# History values

The five kinds of values that an item may have, records (a value at a time) and values on their way
to an item.  A value of a string kind refers to texts (`Value.texts`) that the cache keeps once
each, whoever refers to them.
-/

namespace HistoryCache

/-- What an item is known by. -/
abbrev ItemId := Nat

/-- The kind of values that an item's history holds. -/
inductive Kind where
  | float
  | str
  | log
  | uint
  | text
  deriving DecidableEq, Inhabited

namespace Kind

/-- The number that stands for a kind where a byte is all there is. -/
def code : Kind → Nat
  | float => 0
  | str => 1
  | log => 2
  | uint => 3
  | text => 4

def ofCode? : Nat → Option Kind
  | 0 => some float
  | 1 => some str
  | 2 => some log
  | 3 => some uint
  | 4 => some text
  | _ => none

theorem ofCode?_code (k : Kind) : ofCode? k.code = some k := by cases k <;> rfl

theorem code_of_ofCode? {n : Nat} {k : Kind} (h : ofCode? n = some k) : k.code = n := by
  unfold ofCode? at h
  split at h <;> cases h <;> rfl

/-- The lower-case name. -/
def name : Kind → String
  | float => "float"
  | str => "str"
  | log => "log"
  | uint => "uint"
  | text => "text"

def ofName? : String → Option Kind
  | "float" => some float
  | "str" => some str
  | "log" => some log
  | "uint" => some uint
  | "text" => some text
  | _ => none

/-- The capitalised name, which tags a value of this kind. -/
def label : Kind → String
  | float => "Float"
  | str => "Str"
  | log => "Log"
  | uint => "Uint"
  | text => "Text"

/-- The kinds whose values refer to texts. -/
def isStringLike : Kind → Bool
  | str | log | text => true
  | float | uint => false

instance : Ord Kind := ⟨compareOn code⟩

instance : Std.TransOrd Kind := inferInstanceAs (Std.TransCmp (compareOn code))

instance : Std.LawfulEqOrd Kind where
  eq_of_compare {a b} h := by
    cases a <;> cases b <;> first | rfl | exact absurd h (by decide)

end Kind

/-- An entry of an event log. -/
structure LogEntry where
  timestamp : Int
  eventId : Int
  severity : Int
  source : Option String
  value : String
  deriving DecidableEq, Inhabited

/-- A value of one of the five kinds.  A floating point number is kept as the 64 bits of its
representation, so that equal values are the same bits. -/
inductive Value where
  | float (bits : UInt64)
  | str (s : String)
  | log (entry : LogEntry)
  | uint (n : UInt64)
  | text (s : String)
  deriving DecidableEq, Inhabited

namespace Value

def kind : Value → Kind
  | float _ => .float
  | str _ => .str
  | log _ => .log
  | uint _ => .uint
  | text _ => .text

/-- The texts that a value refers to, each as often as it does. -/
def texts : Value → List String
  | float _ | uint _ => []
  | str s | text s => [s]
  | log entry => entry.source.toList ++ [entry.value]

end Value

/-- A value at a time. -/
structure Record where
  time : Timestamp
  value : Value
  deriving DecidableEq, Inhabited

namespace Record

/-- The second that a record falls into. -/
abbrev sec (r : Record) : Int := r.time.sec

/-- Records from the oldest to the newest; records of one time keep their order. -/
def oldestFirst (rs : List Record) : List Record :=
  rs.mergeSort fun a b => decide (a.time ≤ b.time)

/-- Records from the newest to the oldest; records of one time keep their order. -/
def newestFirst (rs : List Record) : List Record :=
  rs.mergeSort fun a b => decide (b.time ≤ a.time)

end Record

/-- A record on its way to an item. -/
structure ItemRecord where
  item : ItemId
  record : Record
  deriving DecidableEq, Inhabited

end HistoryCache
