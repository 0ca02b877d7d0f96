import HistoryCache.Config
import HistoryCache.StringPool
import HistoryCache.Telemetry

/-!
# The cache

The shared state: the items by their ids, the pool of texts, the budget that both are charged to,
what was served so far, and the mode.

While an item is worked on it is taken out of the map (`checkOut`), because work on one item may
need memory and evict others.  What counts or lists items does not see it until it is put back.
-/

namespace HistoryCache

/-- Whether items are admitted. -/
inductive Mode where
  /-- An item is admitted with the first request for it. -/
  | normal
  /-- The budget ran out: no item is admitted until the mode ends. -/
  | lowMemory
  deriving DecidableEq, Inhabited

def Mode.name : Mode → String
  | normal => "normal"
  | lowMemory => "low memory"

/-- What the clock shows to an eviction round, which looks at it twice. -/
structure Looks where
  /-- When the round begins. -/
  start : Int
  /-- When the round warns of the full cache. -/
  warning : Int
  deriving DecidableEq, Inhabited

/-- Items by their ids. -/
abbrev Items := Std.ExtTreeMap ItemId Item compare

structure Cache where
  config : Config
  items : Items := ∅
  strings : StringPool := {}
  budget : Budget
  /-- Values served from the cache. -/
  hits : Nat := 0
  /-- Values read from the store. -/
  misses : Nat := 0
  mode : Mode := .normal
  /-- The time of the last eviction round that did not find enough expired items, or of the end of
  the mode that it brought. -/
  modeSince : Int := 0
  lastWarning : Int := 0
  telemetry : Telemetry := {}
  /-- What the clock shows to the eviction rounds to come.  To those after them it stands still at the
  time of the operation that they are made for. -/
  clock : List Looks := []

/-- What is told of a cache. -/
structure CacheStats where
  hits : Nat
  misses : Nat
  mode : Mode
  totalSize : Nat
  freeSize : Nat
  usedSize : Nat
  /-- The number of items. -/
  items : Nat
  /-- The number of cached records. -/
  values : Nat
  /-- The number of pooled texts. -/
  strings : Nat
  deriving DecidableEq, Inhabited

/-- The part of the served values that came from the cache, from 0 to 1. -/
def CacheStats.hitRatio (s : CacheStats) : Float :=
  let total := s.hits + s.misses
  if total = 0 then 0 else s.hits.toUInt64.toFloat / total.toUInt64.toFloat

namespace Cache

/-- A cache with nothing in it.  With a size of 0 it is never used. -/
def new (config : Config) : Cache where
  config := config
  budget := { total := config.size }
  telemetry :=
    if config.size = 0 then Telemetry.log {} .openedOff
    else
      (Telemetry.log {} (.opened config.size)).measure
        fun m => { m with memory := some (config.size, config.size) }

/-- Whether the cache can be used at all. -/
def isUsable (c : Cache) : Bool := c.config.size ≠ 0

def log (c : Cache) (e : Event) : Cache := { c with telemetry := c.telemetry.log e }

def measure (c : Cache) (f : Metrics → Metrics) : Cache :=
  { c with telemetry := c.telemetry.measure f }

/-- Sets the gauge of the number of items. -/
def measureItems (c : Cache) : Cache := c.measure fun m => { m with items := c.items.size }

/-- What the clock shows to the next eviction round. -/
def looks (c : Cache) (now : Int) : Looks := c.clock.headD ⟨now, now⟩

/-- An eviction round has looked at the clock. -/
def tick (c : Cache) : Cache := { c with clock := c.clock.tail }

/-- The time before which an item is not used any more if nobody has asked for it since. -/
def expireBefore (c : Cache) (now : Int) : Int := wrap (now - c.config.itemExpirePeriod)

/-- The ids of the items. -/
def ids (c : Cache) : List ItemId := c.items.keys

/-- Changes an item, if it is cached. -/
def modify (c : Cache) (id : ItemId) (f : Item → Item) : Cache :=
  match c.items[id]? with
  | some item => { c with items := c.items.insert id (f item) }
  | none => c

/-- Takes an item out of the map to work on it. -/
def checkOut (c : Cache) (id : ItemId) : Cache := { c with items := c.items.erase id }

/-- Puts an item into the map. -/
def checkIn (c : Cache) (id : ItemId) (item : Item) : Cache :=
  { c with items := c.items.insert id item }

/-- The number of cached records. -/
def values (c : Cache) : Nat :=
  c.items.toList.foldl (fun n (_, item) => n + item.history.size) 0

/-- What is told of each item, those with the most values first. -/
def itemStats (c : Cache) : List ItemStats :=
  (c.items.toList.map fun (id, item) => item.stats id).mergeSort fun a b =>
    decide (b.values < a.values ∨ a.values = b.values ∧ a.item ≤ b.item)

/-- What is told of the cache.  Asking sets the gauges of the memory. -/
def stats (c : Cache) : CacheStats × Cache :=
  ({ hits := c.hits
     misses := c.misses
     mode := c.mode
     totalSize := c.budget.total
     freeSize := c.budget.free
     usedSize := c.budget.used
     items := c.items.size
     values := c.values
     strings := c.strings.size },
    c.measure fun m => { m with memory := some (c.budget.total, c.budget.free) })

/-- Takes an answer into account: the values that came from the cache and those that were read.  The
item, if one is given and still cached, has been asked for now. -/
def account (c : Cache) (now : Int) (id : Option ItemId) (hits misses : Nat) : Cache :=
  let c :=
    match id with
    | some id => c.modify id fun item => { item with hits := item.hits + hits, lastAccessed := now }
    | none => c
  { c with hits := c.hits + hits, misses := c.misses + misses }.measure (·.served hits misses)

end Cache

end HistoryCache
