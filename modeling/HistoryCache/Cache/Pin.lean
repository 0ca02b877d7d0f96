import HistoryCache.Cache.Growth

/-!
# Holding items

A request or a write holds an item from its start to its end, so that nothing removes the item
meanwhile.  What was put off for its sake is done when its last holder leaves.
-/

namespace HistoryCache.Cache

/-- Holds an item. -/
def pin (c : Cache) (id : ItemId) : Cache :=
  c.modify id fun item => { item with pins := item.pins + 1 }

/-- Leaves an item.  With the last holder gone it is removed or trimmed, if that is pending. -/
def unpin (c : Cache) (now : Int) (id : ItemId) : Cache :=
  match c.items[id]? with
  | none => c
  | some item =>
    let item := { item with pins := item.pins - 1 }
    if 0 < item.pins then c.checkIn id item
    else
      match item.state with
      | .active => c.checkIn id item
      | .removePending => ((c.checkIn id item).remove id).2
      | .cleanPending =>
        let (item, c) := (c.checkOut id).trim now item
        c.checkIn id { item with state := .active }

end HistoryCache.Cache
