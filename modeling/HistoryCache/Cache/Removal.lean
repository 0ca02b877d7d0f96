import HistoryCache.Cache

/-!
# Removal

Giving back what records, chunks and items hold, and taking items out of the cache.  A text goes
back to the budget with the last record that refers to it, so how many bytes a removal frees
depends on what is left.
-/

namespace HistoryCache

/-- Bytes of a log value beside its texts. -/
def LogEntry.bytes : Nat := 48

namespace Cache

/-- Gives bytes back to the budget. -/
def refund (c : Cache) (size : Nat) : Cache := { c with budget := c.budget.refund size }

/-- Gives back a reference to a text, and returns the bytes that are free for it. -/
def releaseText (c : Cache) (s : Handle) : Nat × Cache :=
  let (freed, strings) := c.strings.release s
  let c := { c with strings := strings }
  (freed, if 0 < freed then c.refund freed else c)

/-- Does something that frees bytes for each element of a list, and returns their sum. -/
def freeAll {α : Type} (f : α → Cache → Nat × Cache) : List α → Cache → Nat × Cache
  | [], c => (0, c)
  | a :: as, c =>
    let (freed, c) := f a c
    let (rest, c) := freeAll f as c
    (freed + rest, c)

/-- Gives back references to texts. -/
def releaseTexts (c : Cache) (handles : List Handle) : Nat × Cache :=
  freeAll (fun s c => c.releaseText s) handles c

/-- Gives back what a value holds. -/
def releaseValue (c : Cache) (v : CachedValue) : Nat × Cache :=
  match v with
  | .log entry =>
    let (freed, c) := (c.refund LogEntry.bytes).releaseTexts entry.handles
    (LogEntry.bytes + freed, c)
  | v => c.releaseTexts v.handles

/-- Gives back the chunks and records that a history has let go of. -/
def release (c : Cache) (gone : Released) : Nat × Cache :=
  let (freed, c) := freeAll (fun r c => c.releaseValue r.value) gone.kept c
  let (rest, c) := freeAll (fun n c => (Chunk.bytes n, c.refund (Chunk.bytes n))) gone.chunks c
  (freed + rest, c)

/-- Takes an item out of the cache with all that it holds, and returns the bytes that are free for
it. -/
def remove (c : Cache) (id : ItemId) : Nat × Cache :=
  match c.items[id]? with
  | some item =>
    let (freed, c) := (c.checkOut id).release item.history.releaseAll
    (freed + Item.entryBytes, (c.refund Item.entryBytes).measureItems)
  | none => (0, c)

/-- Takes an item out of the cache, now if nobody holds it and otherwise when its last holder
leaves. -/
def requestRemoval (c : Cache) (id : ItemId) : Cache :=
  match c.items[id]? with
  | some item => if 0 < item.pins then c.checkIn id item.markRemove else (c.remove id).2
  | none => c

/-- Requests the removal of the items in the order given and starts all counts again. -/
def resetIn (c : Cache) (order : List ItemId) : Cache :=
  { order.foldl requestRemoval c with
    hits := 0
    misses := 0
    mode := .normal
    modeSince := 0
    lastWarning := 0 }.measure fun m => { m with lowMemory := false }

/-- Empties the cache, but for items that are in use, and starts all counts again. -/
def reset (c : Cache) : Cache := c.resetIn c.ids

end Cache

end HistoryCache
