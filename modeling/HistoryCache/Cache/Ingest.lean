import HistoryCache.Cache.Pin

/-!
# Ingest

Records that were written to the store go to the items that are cached; a write admits none.  A
record that an item cannot take costs the item its place, and the next request builds it anew from
the store.
-/

namespace HistoryCache.Cache

/-- Offers a written record to an item that is out of the map.  Items of which nobody has asked
since `expireBefore` take none. -/
def offer (c : Cache) (now expireBefore : Int) (id : ItemId) (r : Record) (item : Item) :
    Except CacheFailure Unit × Item × Cache :=
  if item.state = .removePending then (.ok (), item, c)
  else if item.kind ≠ r.value.kind then
    (.error (.kindMismatch id item.kind r.value.kind), item, c)
  else if item.lastAccessed < expireBefore then
    (.error (.expired id item.lastAccessed), item, c)
  else
    match c.write now id r item with
    | (.error e, item, c) => (.error e, item, c)
    | (.ok (), item', c) =>
      -- with a new chunk at the newest end, the oldest may fall out of the active range
      if item'.history.chunks.head ≠ item.history.chunks.head then (.ok (), item'.markClean, c)
      else (.ok (), item', c)

/-- Adds a written record to its item, if that is cached. -/
def ingestOne (now expireBefore : Int) (c : Cache) (w : ItemRecord) : Cache :=
  let c := c.pin w.item
  match c.items[w.item]? with
  | none => c
  | some item =>
    let c :=
      match (c.checkOut w.item).offer now expireBefore w.item w.record item with
      | (.ok (), item, c) => c.checkIn w.item item
      | (.error e, item, c) =>
        (c.checkIn w.item item.markRemove).log (.dropping w.item e.message)
    c.unpin now w.item

/-- Adds written records to the items that are cached. -/
def ingest (c : Cache) (now : Int) (writes : List ItemRecord) : Cache :=
  writes.foldl (ingestOne now (c.expireBefore now)) c

end HistoryCache.Cache
