import HistoryCache.Cache.Removal

/-!
# Eviction

When a charge does not fit, `Cache.makeSpace` frees at least the bytes that are asked for and never
less than a part of the budget.  Items that nobody has asked for lately go first.  If they are not
enough, the cache enters low-memory mode and items go by their weight, the lightest first.  An item
that is in use is never evicted, and neither is the one that the memory is for.

Low-memory mode ends when no such round was needed for a while.  Until then the log tells of the
full cache from time to time.  A round looks at the clock when it begins and again when it warns of the
full cache, so that a round that takes long may end the mode that it has just brought.
-/

namespace HistoryCache.Cache

/-- The most that an eviction round frees beyond what is asked for. -/
def maxLeastRelease : Nat := 128 * 1024

/-- What an eviction round frees at least. -/
def leastRelease (c : Cache) : Nat := min (c.budget.total / 100 * 5) maxLeastRelease

/-- The number of items that a report lists. -/
def itemsReported : Nat := 25

/-- Whether an item may be evicted for `source`. -/
def evictable (c : Cache) (source id : ItemId) : Bool :=
  c.items[id]?.any fun item => item.pins == 0 && id != source

/-- Whether an item may be evicted for `source` and was not asked for since `before`. -/
def idle (c : Cache) (source : ItemId) (before : Int) (id : ItemId) : Bool :=
  c.evictable source id && c.items[id]?.any fun item => decide (item.lastAccessed < before)

/-- Removes an item to make space. -/
def evict (reason : EvictionReason) (id : ItemId) (c : Cache) : Nat × Cache :=
  let (freed, c) := c.remove id
  (freed, c.measure (·.evicted reason))

/-- Evicts the idle ones of some items, in their order. -/
def evictIdleIn (c : Cache) (order : List ItemId) (source : ItemId) (before : Int) : Nat × Cache :=
  freeAll (evict .expired) (order.filter (c.idle source before)) c

/-- Evicts the items that nobody holds and nobody has asked for since `before`, and returns the
bytes that are free for it. -/
def evictIdle (c : Cache) (source : ItemId) (before : Int) : Nat × Cache :=
  c.evictIdleIn c.ids source before

/-- Evicts items in their order until so many bytes are free. -/
def evictUntil (need : Nat) : List ItemId → Nat → Cache → Cache
  | [], _, c => c
  | id :: rest, freed, c =>
    if need ≤ freed then c
    else
      let (more, c) := evict .weight id c
      evictUntil need rest (freed + more) c

/-- Whether an item goes before another: it weighs less, or as much and has the smaller id.  No weight
is negative, so weights compare as their bits do. -/
def lighter (a b : ItemId × Float) : Bool :=
  let (i, v) := a
  let (j, w) := b
  decide (v.toBits < w.toBits ∨ v.toBits = w.toBits ∧ i ≤ j)

/-- Those of some items that may be evicted for `source`, the lightest first. -/
def byWeightIn (c : Cache) (order : List ItemId) (source : ItemId) : List ItemId :=
  let weighed := (order.filter (c.evictable source)).filterMap fun id =>
    c.items[id]?.map fun item => (id, item.weight)
  (weighed.mergeSort lighter).map (·.1)

/-- The largest items, for the log. -/
def reportItems (c : Cache) : Cache :=
  let total := c.values
  (c.itemStats.take itemsReported).foldl (fun c stats => c.log (.itemReport stats total))
    (c.log (.itemsReport c.items.size total))

/-- The state of the budget, for the log. -/
def reportMemory (c : Cache) : Cache := c.log (.memoryReport c.budget c.strings.size)

/-- Leaves low-memory mode after a period without a round, and otherwise warns of the full cache
unless that was done lately. -/
def warnLowMemory (c : Cache) (now : Int) : Cache :=
  if c.config.lowMemoryResetPeriod < wrap (now - c.modeSince) then
    ({ c with mode := .normal, modeSince := now }.measure
      fun m => { m with lowMemory := false }).log .backToNormal
  else if c.config.lowMemoryWarningPeriod < wrap (now - c.lastWarning) then
    ({ c with lastWarning := now }.reportItems.reportMemory).log .fullyUsed
  else c

/-- Enters low-memory mode, or stays in it, from now on. -/
def enterLowMemory (c : Cache) (now : Int) (requested : Nat) : Cache :=
  let c := if c.mode = .lowMemory then c else c.log (.exhausted requested c.budget.free)
  { c with mode := .lowMemory, modeSince := now }.measure fun m => { m with lowMemory := true }

/-- Frees bytes for `source` by evicting some items; in what order they are listed is of no
matter. -/
def makeSpaceIn (c : Cache) (order : List ItemId) (looks : Looks) (source : ItemId) (size : Nat) :
    Cache :=
  let need := max size c.leastRelease
  let (freed, c) := c.evictIdleIn order source (c.expireBefore looks.start)
  if need ≤ freed then c
  else
    let c := (c.enterLowMemory looks.start size).warnLowMemory looks.warning
    evictUntil need (c.byWeightIn order source) freed c

/-- Frees at least `size` bytes for `source`, as far as items can be evicted. -/
def makeSpace (c : Cache) (now : Int) (source : ItemId) (size : Nat) : Cache :=
  (c.makeSpaceIn c.ids (c.looks now) source size).tick

end HistoryCache.Cache
