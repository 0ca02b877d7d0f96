import HistoryCache.Cache.Eviction

/-!
# Allocation

Charging the budget on behalf of an item, with one round of eviction if there is no room, and taking
what a value holds.  What was taken for a value that cannot be kept whole is given back.
-/

namespace HistoryCache.Cache

/-- Charges bytes for an item.  Without room others are evicted and the charge is tried once
more. -/
def charge (c : Cache) (now : Int) (source : ItemId) (size : Nat) :
    Except CacheFailure Unit × Cache :=
  match c.budget.tryCharge size with
  | (true, budget) => (.ok (), { c with budget := budget })
  | (false, budget) =>
    let c := { c with budget := budget }.makeSpace now source size
    match c.budget.tryCharge size with
    | (true, budget) => (.ok (), { c with budget := budget })
    | (false, budget) => (.error (.outOfMemory size), { c with budget := budget })

/-- Takes a reference to a text.  The first one is charged to the item. -/
def holdText (c : Cache) (now : Int) (source : ItemId) (s : String) :
    Except CacheFailure Handle × Cache :=
  match c.strings.lookup? s with
  | some (handle, strings) => (.ok handle, { c with strings := strings })
  | none =>
    match c.charge now source (StringPool.entryBytes s) with
    | (.ok (), c) =>
      let (handle, strings) := c.strings.intern s
      (.ok handle, { c with strings := strings })
    | (.error e, c) => (.error e, c)

/-- Takes a reference to a text, if there is one. -/
def holdText? (c : Cache) (now : Int) (source : ItemId) :
    Option String → Except CacheFailure (Option Handle) × Cache
  | none => (.ok none, c)
  | some s =>
    let (handle, c) := c.holdText now source s
    (handle.map some, c)

/-- Takes references to the texts of a log entry, all or none. -/
def holdEntry (c : Cache) (now : Int) (source : ItemId) (entry : LogEntry) :
    Except CacheFailure CachedLog × Cache :=
  match c.holdText? now source entry.source with
  | (.error e, c) => (.error e, c)
  | (.ok origin, c) =>
    match c.holdText now source entry.value with
    | (.ok value, c) =>
      (.ok ⟨entry.timestamp, entry.eventId, entry.severity, origin, value⟩, c)
    | (.error e, c) => (.error e, (c.releaseTexts origin.toList).2)

/-- Takes what a value needs to be kept, and copies it. -/
def holdValue (c : Cache) (now : Int) (source : ItemId) :
    Value → Except CacheFailure CachedValue × Cache
  | .float bits => (.ok (.float bits), c)
  | .uint n => (.ok (.uint n), c)
  | .str s =>
    let (handle, c) := c.holdText now source s
    (handle.map .str, c)
  | .text s =>
    let (handle, c) := c.holdText now source s
    (handle.map .text, c)
  | .log entry =>
    match c.charge now source LogEntry.bytes with
    | (.error e, c) => (.error e, c)
    | (.ok (), c) =>
      match c.holdEntry now source entry with
      | (.ok entry, c) => (.ok (.log entry), c)
      | (.error e, c) => (.error e, c.refund LogEntry.bytes)

/-- Puts a new item into the cache. -/
def create (c : Cache) (now : Int) (id : ItemId) (kind : Kind) : Except CacheFailure Unit × Cache :=
  match c.charge now id Item.entryBytes with
  | (.ok (), c) => (.ok (), (c.checkIn id (Item.empty kind now)).measureItems)
  | (.error e, c) => (.error e, c)

end HistoryCache.Cache
