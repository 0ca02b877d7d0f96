import HistoryCache.Cache.Pin
import HistoryCache.Request

/-!
# Serving requests

A request is served in steps, with the cache let go of between them.

1. `Cache.start` admits and holds the item.  What is cached is the answer, unless some of what is
   wanted lies below the cached history (`Start.fill`) or the cache cannot serve the request
   (`Start.bypass`).
2. `Cache.finishFill` takes what was read for `Start.fill`, puts it below the history and answers
   from there.  Where that fails, the item is lost and the request goes past the cache.
3. `Cache.finishBypass` counts what was read for a request that went past the cache.

Whatever others do between the steps, the item stays in the map while it is held.
-/

namespace HistoryCache

/-- Records that were read to extend a history. -/
structure Fetched where
  /-- The records in the order of their times. -/
  records : List Record
  /-- The number of those that a count was limited for. -/
  counted : Nat
  deriving DecidableEq, Inhabited

/-- How far an item is covered once its history is extended. -/
inductive Extent where
  /-- All of the window that starts with a second was read. -/
  | window (start : Int)
  /-- `needed` records were asked for from a range that starts with a second. -/
  | count (start : Int) (needed : Nat)
  deriving DecidableEq, Inhabited

/-- Takes note of what an extended item covers.  A count that was met, or one over the whole
history, reaches down to the oldest record read; one that was not met has read all of its range. -/
def Extent.mark (fetched : Fetched) (item : Item) : Extent → Item
  | window start => { item with cachedAll := false, coveredFrom := some start }
  | count start needed =>
    match fetched.records.head? with
    | some oldest =>
      if needed ≤ fetched.counted ∨ start = 0 then { item with coveredFrom := some oldest.sec }
      else { item with coveredFrom := some start }
    | none => if start = 0 then item else { item with coveredFrom := some start }

/-- What is missing below an item's history, and what it takes to extend it. -/
structure Fill where
  extent : Extent
  /-- The item's count of writes below its history when the reading began. -/
  tailWrites : Nat
  reading : Reading Fetched

/-- How a request goes on after its first step. -/
inductive Start where
  | answer (records : List Record)
  | fill (fill : Fill)
  /-- The answer is read from the store; the item may be held meanwhile. -/
  | bypass (held : Bool)

namespace Request

/-- Reads the window down from second `upTo`. -/
def fetchWindow (q : Request) (upTo : Int) : Reading Fetched := do
  let records ← q.readRange (exclusive q.windowStart) upTo
  return { records := Record.oldestFirst records, counted := 0 }

/-- Reads down from second `upTo` until `needed` records are found at or before the requested time.
Records after its second do not count towards them. -/
def fetchCount (q : Request) (needed : Nat) (upTo : Int) : Reading Fetched := do
  let newer ← if q.upTo.sec < upTo then q.readRange q.upTo.sec upTo else pure []
  let older ← q.countBack q.countStart needed (min upTo q.upTo.sec)
  return { records := Record.oldestFirst (newer ++ older), counted := older.length }

/-- What has to be read below an item's history for a request, if anything. -/
def missing? (q : Request) (item : Item) : Option Fill :=
  let upTo := item.uncachedUpTo
  if q.count = 0 then
    if item.covers q.windowStart ∨ upTo ≤ q.windowStart then none
    else some ⟨.window q.windowStart, item.tailWrites, q.fetchWindow upTo⟩
  else
    let cached := item.history.countUpTo q.upTo q.count
    if item.covers q.countStart ∨ q.count ≤ cached then none
    else
      let needed := q.count - cached
      some ⟨.count q.countStart needed, item.tailWrites, q.fetchCount needed upTo⟩

/-- The cached records that answer a request, and the item after it. -/
def collect (q : Request) (now : Int) (item : Item) : List Record × Item :=
  if q.count = 0 then item.collectWindow q.seconds q.upTo now
  else item.collectCount q.seconds q.count q.upTo now

end Request

namespace Cache

/-- Whether an item is in the cache for a request, which puts it there if it may. -/
def ensure (c : Cache) (now : Int) (q : Request) : Bool × Cache :=
  if c.items.contains q.item then (true, c)
  else if c.mode = .lowMemory then (false, c)
  else
    match c.create now q.item q.kind with
    | (.ok (), c) => (true, c)
    | (.error e, c) => (false, c.log (.notAdmitted q.item e.message))

/-- The item that a request can be served from. -/
def servable (c : Cache) (q : Request) : Except CacheFailure Item :=
  match c.items[q.item]? with
  | none => .error (.itemMissing q.item)
  | some item =>
    if item.state = .removePending then .error (.removePending q.item)
    else if item.kind ≠ q.kind then .error (.kindMismatch q.item item.kind q.kind)
    else .ok item

/-- Answers a request from the cached records, `read` of which were read for it, and leaves the
item. -/
def answer (c : Cache) (now : Int) (q : Request) (read : Nat) (item : Item) :
    List Record × Cache :=
  let (records, item) := q.collect now item
  let misses := min read records.length
  let c := (c.checkIn q.item item).account now (some q.item) (records.length - misses) misses
  (records, c.unpin now q.item)

/-- Gives up an item that a request cannot be served from. -/
def giveUp (c : Cache) (q : Request) (e : Failure) : Cache :=
  (c.log (.notServed q.item e.message)).modify q.item Item.markRemove

/-- Begins to serve a request. -/
def start (c : Cache) (now : Int) (q : Request) : Start × Cache :=
  let c := if c.mode = .lowMemory then c.warnLowMemory now else c
  match c.ensure now q with
  | (false, c) => (.bypass false, c)
  | (true, c) =>
    let c := c.pin q.item
    match c.servable q with
    | .error e => (.bypass true, c.giveUp q (.cache e))
    | .ok item =>
      match q.missing? item with
      | some fill => (.fill fill, c)
      | none =>
        let (records, c) := c.answer now q 0 item
        (.answer records, c)

/-- Puts fetched records below the history of the item they were read for.  They are of no use if
the item is to go, or if a value was written below its history in the meantime: it may be missing
from them. -/
def extend (c : Cache) (now : Int) (q : Request) (fill : Fill) (fetched : Fetched) :
    Except CacheFailure Item × Cache :=
  match c.items[q.item]? with
  | none => (.error (.itemMissing q.item), c)
  | some item =>
    if item.tailWrites ≠ fill.tailWrites ∨ item.state = .removePending then
      (.error (.tailChanged q.item), c)
    else
      match (c.checkOut q.item).prepend now q.item fetched.records item with
      | (.error e, item, c) => (.error e, c.checkIn q.item item)
      | (.ok (), item, c) =>
        let item := fill.extent.mark fetched item
        (.ok item, c.checkIn q.item item)

/-- Goes on after a reading for `Start.fill`.  With no answer, the request goes past the cache with
the item held. -/
def finishFill (c : Cache) (now : Int) (q : Request) (fill : Fill)
    (result : Except StoreFailure Fetched) : Option (List Record) × Cache :=
  match result with
  | .error e => (none, c.giveUp q (.store e))
  | .ok fetched =>
    match c.extend now q fill fetched with
    | (.error e, c) => (none, c.giveUp q (.cache e))
    | (.ok item, c) =>
      let (records, c) := c.answer now q fetched.records.length item
      (some records, c)

/-- Goes on after a reading past the cache, and leaves the item if it was held. -/
def finishBypass (c : Cache) (now : Int) (q : Request) (held : Bool)
    (result : Except StoreFailure (List Record)) : Cache :=
  let c :=
    match result with
    | .ok records => c.account now none 0 records.length
    | .error _ => c
  if held then c.unpin now q.item else c

end Cache

end HistoryCache
