import HistoryCache.History

/-!
# Cached items

What the cache keeps of an item: its history, how far the history goes back, and who uses it.

An item vouches for what it holds: with `cachedAll` its history is the store's whole history, and
with `coveredFrom = some s` nothing of second `s` or later is missing.
-/

namespace HistoryCache

/-- What is to become of an item. -/
inductive ItemState where
  | active
  /-- The history is to be trimmed when the last reader leaves. -/
  | cleanPending
  /-- The item is to be dropped when the last reader leaves. -/
  | removePending
  deriving DecidableEq, Inhabited

/-- An item in the cache. -/
structure Item where
  kind : Kind
  state : ItemState := .active
  /-- Every record of the item in the store is cached. -/
  cachedAll : Bool := false
  /-- Every record of the item in the store from this second on is cached. -/
  coveredFrom : Option Int := none
  /-- The number of values that were served. -/
  hits : Nat := 0
  lastAccessed : Int
  /-- The number of requests and writes that hold the item. -/
  pins : Nat := 0
  /-- The seconds of history that are worth keeping; nothing is trimmed while it is 0. -/
  activeRange : Int := 0
  /-- The longest range that was asked for since the last synchronisation. -/
  dailyRange : Int := 0
  /-- The hour of the last synchronisation, modulo 256. -/
  syncHour : Int := 0
  /-- The number of values that were written below the history and not cached. -/
  tailWrites : Nat := 0
  history : History := {}
  deriving DecidableEq, Inhabited

namespace Item

/-- Bytes of an item beside its history. -/
def entryBytes : Nat := 176

/-- The shortest range that an item is asked to keep. -/
def minRange : Int := 60

/-- The hours after which the active range becomes the daily range. -/
def syncPeriod : Int := 24

/-- An item of which nothing is cached. -/
def empty (kind : Kind) (now : Int) : Item := { kind := kind, lastAccessed := now }

/-- The hour of a time, modulo 256. -/
def hourOf (now : Int) : Int := now.tdiv 3600 % 256

/-- The hours from `since` to `hour` on a dial of 256; one less across its end. -/
def hoursBetween (since hour : Int) : Int :=
  if hour < since then hour - since + 255 else hour - since

/-- Notes that a request needed a range.  The daily range follows the longest request.  When it
outgrows the active range, or a day after the last time, it becomes the active range and starts
again from this request. -/
def updateRange (item : Item) (range now : Int) : Item :=
  let range := max range minRange
  let daily := max item.dailyRange range
  let hour := hourOf now
  if item.activeRange < daily ∨ syncPeriod < hoursBetween item.syncHour hour then
    { item with activeRange := daily, dailyRange := range, syncHour := hour }
  else { item with dailyRange := daily }

/-- Asks for a trim, unless something is asked for already. -/
def markClean (item : Item) : Item :=
  if item.state = .active then { item with state := .cleanPending } else item

/-- Asks for the removal of the item. -/
def markRemove (item : Item) : Item := { item with state := .removePending }

/-- Whether nothing of the store from a second on is missing. -/
def covers (item : Item) (start : Int) : Bool :=
  item.cachedAll || item.coveredFrom.any fun sec => decide (sec ≤ start)

/-- The last second of which nothing is cached below the history. -/
def uncachedUpTo (item : Item) : Int :=
  match item.history.oldest? with
  | some r => r.sec - 1
  | none => Timestamp.horizon

/-- The second before which nothing is worth keeping. -/
def boundary (item : Item) (now : Int) : Int := wrap (now - item.activeRange)

/-- The cached records of a window that ends at `t`, newest first, and the item with its range
updated for it. -/
def collectWindow (item : Item) (seconds : Int) (t : Timestamp) (now : Int) :
    List Record × Item :=
  ((item.history.backFrom t).takeWhile fun r => decide (wrap (t.sec - seconds) < r.sec),
    item.updateRange (wrap (seconds + now - t.sec + 1)) now)

/-- The newest `count` cached records at or before `t`, newest first, inside the window unless
`seconds = 0`, and the item with its range updated for them.

A request with no window that finds too few has seen all there is.  One that finds enough needs the
history only as far back as what it found. -/
def collectCount (item : Item) (seconds : Int) (count : Nat) (t : Timestamp) (now : Int) :
    List Record × Item :=
  let found := ((item.history.backFrom t).takeWhile fun r =>
    seconds == 0 || decide (wrap (t.sec - seconds) < r.sec)).take count
  if found.length < count ∧ seconds = 0 then
    (found, { item with cachedAll := true, activeRange := 0, dailyRange := 0 })
  else
    let range :=
      match found.getLast? with
      | some oldest =>
        if found.length = count then now - oldest.sec + 1 else seconds + now - t.sec + 1
      | none => seconds + now - t.sec + 1
    (found, item.updateRange (wrap range) now)

/-- Hits for each cached value; what has the least is evicted first.  An item without values weighs
nothing. -/
def weight (item : Item) : Float :=
  if item.history.size = 0 then 0
  else item.hits.toUInt64.toFloat / item.history.size.toUInt64.toFloat

end Item

/-- What is told of an item. -/
structure ItemStats where
  item : ItemId
  kind : Kind
  state : ItemState
  /-- The number of cached records. -/
  values : Nat
  /-- The number of chunks that hold them. -/
  chunks : Nat
  hits : Nat
  pins : Nat
  activeRange : Int
  dailyRange : Int
  coveredFrom : Option Int
  cachedAll : Bool
  lastAccessed : Int
  deriving DecidableEq, Inhabited

def Item.stats (item : Item) (id : ItemId) : ItemStats where
  item := id
  kind := item.kind
  state := item.state
  values := item.history.size
  chunks := item.history.length
  hits := item.hits
  pins := item.pins
  activeRange := item.activeRange
  dailyRange := item.dailyRange
  coveredFrom := item.coveredFrom
  cachedAll := item.cachedAll
  lastAccessed := item.lastAccessed

end HistoryCache
