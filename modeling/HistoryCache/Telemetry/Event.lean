import HistoryCache.Item
import HistoryCache.Budget
import HistoryCache.Text.Fixed

/-!
# Events

What the cache reports as it happens.  An event has a level, a message and named fields.
-/

namespace HistoryCache

/-- How much an event matters. -/
inductive Level where
  | debug
  | info
  | warn
  deriving DecidableEq, Inhabited

def Level.name : Level → String
  | debug => "DEBUG"
  | info => "INFO"
  | warn => "WARN"

/-- The value of a field. -/
inductive FieldValue where
  | number (n : Int)
  | text (s : String)
  deriving DecidableEq, Inhabited

inductive Event where
  | opened (size : Nat)
  /-- The budget is zero bytes, so the cache stays off. -/
  | openedOff
  | reset
  | closed (items values hits misses : Nat)
  | backToNormal
  /-- A request is answered from the store for a failure inside the cache. -/
  | notServed (item : ItemId) (failure : String)
  | notAdmitted (item : ItemId) (failure : String)
  | dropping (item : ItemId) (failure : String)
  | exhausted (requested free : Nat)
  | itemsReport (items values : Nat)
  /-- One of the largest items, in a cache that holds `total` values. -/
  | itemReport (stats : ItemStats) (total : Nat)
  | memoryReport (budget : Budget) (strings : Nat)
  | fullyUsed
  deriving DecidableEq, Inhabited

namespace Event

def level : Event → Level
  | opened _ | openedOff | reset | closed .. | backToNormal => .info
  | notServed .. | notAdmitted .. | dropping .. => .debug
  | exhausted .. | itemsReport .. | itemReport .. | memoryReport .. | fullyUsed => .warn

def message : Event → String
  | opened _ => "value cache initialized"
  | openedOff => "value cache disabled: size is 0"
  | reset => "value cache reset"
  | closed .. => "value cache destroyed"
  | backToNormal => "value cache has been switched back to normal mode"
  | notServed .. => "request not served from value cache"
  | notAdmitted .. => "item not admitted to value cache"
  | dropping .. => "dropping item from value cache"
  | exhausted .. => "value cache memory exhausted, switching to low memory mode"
  | itemsReport .. => "value cache item statistics"
  | itemReport .. => "value cache item"
  | memoryReport .. => "value cache memory statistics"
  | fullyUsed => "value cache is fully used: please increase the cache size"

/-- The share of `values` in `total`, in percent with one decimal. -/
def share (values total : Nat) : String :=
  let percent : Float :=
    if total = 0 then 0 else values.toUInt64.toFloat * 100.0 / total.toUInt64.toFloat
  Text.fixed 1 percent.toBits ++ "%"

def fields : Event → List (String × FieldValue)
  | opened size => [("size", .number size)]
  | openedOff | reset | backToNormal | fullyUsed => []
  | closed items values hits misses =>
    [("items", .number items), ("values", .number values), ("hits", .number hits),
      ("misses", .number misses)]
  | notServed item failure | notAdmitted item failure | dropping item failure =>
    [("itemid", .number item), ("error", .text failure)]
  | exhausted requested free => [("requested", .number requested), ("free", .number free)]
  | itemsReport items values => [("items", .number items), ("values", .number values)]
  | itemReport stats total =>
    [("itemid", .number stats.item), ("active_range", .number stats.activeRange),
      ("hits", .number stats.hits), ("values", .number stats.values),
      ("share", .text (share stats.values total))]
  | memoryReport budget strings =>
    [("total", .number budget.total), ("used", .number budget.used),
      ("free", .number budget.free), ("allocations", .number budget.allocations),
      ("high_watermark", .number budget.highWatermark), ("failed", .number budget.refused),
      ("strings", .number strings)]

end Event

end HistoryCache
