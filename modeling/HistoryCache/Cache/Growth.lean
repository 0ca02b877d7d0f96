import HistoryCache.Cache.Allocation

/-!
# Growing and shrinking a history

What enters and leaves the history of one item, which is out of the map meanwhile.

* `Cache.prepend` puts records that were read from the store below the history.
* `Cache.write` takes a freshly written record: above the history, or into its order.  A record
  from before the history cannot be placed, for what lies between is not known; the second that it
  belongs to is dropped instead and read again when it is wanted.
* `Cache.trim` drops what is older than the item's active range.
-/

namespace HistoryCache.Cache

/-- Makes sure that a record can be put below the history; `waiting` are the records that are to be
put there. -/
def openOldest (c : Cache) (now : Int) (id : ItemId) (waiting : List Record) (h : History) :
    Except CacheFailure History × Cache :=
  if h.hasRoom then (.ok h, c)
  else
    let slots := History.capacityFor (h.size + waiting.length)
    match c.charge now id (Chunk.bytes slots) with
    | (.ok (), c) => (.ok (h.addOldest slots), c)
    | (.error e, c) => (.error e, c)

/-- Puts records below a history one by one, the newest first.  After a failure those that were put
there stay. -/
def fill (now : Int) (id : ItemId) :
    List Record → History → Cache → Except CacheFailure Unit × History × Cache
  | [], h, c => (.ok (), h, c)
  | r :: older, h, c =>
    match c.openOldest now id (r :: older) h with
    | (.error e, c) => (.error e, h, c)
    | (.ok h, c) =>
      match c.holdValue now id r.value with
      | (.ok value, c) => fill now id older (h.pushOldest ⟨r.time, value⟩) c
      | (.error e, c) =>
        let (gone, h) := h.dropEmpty
        (.error e, h, (c.release gone).2)

/-- Those of some records, in the order of their times, that fall into seconds before the history,
the newest first.  Others may have cached the rest in the meantime. -/
def belowHistory (h : History) (records : List Record) : List Record :=
  match h.oldest? with
  | some oldest => records.reverse.dropWhile fun r => decide (oldest.sec ≤ r.sec)
  | none => records.reverse

/-- Puts older records, in the order of their times, below the history of an item. -/
def prepend (c : Cache) (now : Int) (id : ItemId) (records : List Record) (item : Item) :
    Except CacheFailure Unit × Item × Cache :=
  let (result, h, c) := fill now id (belowHistory item.history records) item.history c
  (result, { item with history := h }, c)

/-- Takes a slot above the history into use. -/
def openNewest (c : Cache) (now : Int) (id : ItemId) (h : History) :
    Except CacheFailure (Spot × History) × Cache :=
  match h.reserve? with
  | some opened => (.ok opened, c)
  | none =>
    let slots := History.capacityFor (h.size + 1)
    match c.charge now id (Chunk.bytes slots) with
    | (.ok (), c) => (.ok (h.addNewest slots), c)
    | (.error e, c) => (.error e, c)

/-- Takes what a record needs and a slot above the history.  Without a slot, what was taken is given
back. -/
def reserve (c : Cache) (now : Int) (id : ItemId) (r : Record) (h : History) :
    Except CacheFailure (CachedRecord × Spot × History) × Cache :=
  match c.holdValue now id r.value with
  | (.error e, c) => (.error e, c)
  | (.ok value, c) =>
    match c.openNewest now id h with
    | (.ok opened, c) => (.ok (⟨r.time, value⟩, opened), c)
    | (.error e, c) => (.error e, (c.releaseValue value).2)

/-- Puts a record above the history. -/
def append (c : Cache) (now : Int) (id : ItemId) (r : Record) (item : Item) :
    Except CacheFailure Unit × Item × Cache :=
  match c.reserve now id r item.history with
  | (.error e, c) => (.error e, item, c)
  | (.ok (kept, top, h), c) => (.ok (), { item with history := h.put top kept }, c)

/-- Puts a record into the order of the history.  The spot to put it above is looked for before
anything is moved. -/
def insert (c : Cache) (now : Int) (id : ItemId) (r : Record) (item : Item) :
    Except CacheFailure Unit × Item × Cache :=
  match item.history.position? r.time with
  | none => (.error (.outOfOrder id ("no cached record at or before " ++ r.time.text)), item, c)
  | some after =>
    match c.reserve now id r item.history with
    | (.error e, c) => (.error e, item, c)
    | (.ok (kept, top, h), c) =>
      match h.makeRoom after top with
      | (some spot, h) => (.ok (), { item with history := h.put spot kept }, c)
      | (none, h) =>
        (.error (.outOfOrder id "out of order insert walked past the chunk tail"),
          { item with history := h }, (c.releaseValue kept.value).2)

/-- Drops the cached records of second `sec` and of earlier ones, so that the item vouches for the
seconds after it only.  An item that is left with nothing is to be removed: a later record of the
same second would follow others that are not cached. -/
def dropThrough (c : Cache) (sec : Int) (item : Item) : Item × Cache :=
  let (gone, h) := item.history.dropThrough sec
  ({ item with
      cachedAll := false
      history := h
      coveredFrom :=
        if item.coveredFrom.all fun s => decide (s ≤ sec) then some (sec + 1)
        else item.coveredFrom
      state := if h.isEmpty then .removePending else item.state },
    (c.release gone).2)

/-- Takes a freshly written record. -/
def write (c : Cache) (now : Int) (id : ItemId) (r : Record) (item : Item) :
    Except CacheFailure Unit × Item × Cache :=
  match item.history.newest?, item.history.oldest? with
  | some newest, some oldest =>
    if newest.time ≤ r.time then c.append now id r item
    else if oldest.time ≤ r.time then c.insert now id r item
    else
      let (item, c) := c.dropThrough r.sec { item with tailWrites := item.tailWrites + 1 }
      (.ok (), item, c)
  | none, _ =>
    -- an empty item vouches for the seconds that it covers and for no others
    if !item.cachedAll && item.coveredFrom.any fun s => decide (r.sec < s) then
      (.ok (), { item with tailWrites := item.tailWrites + 1 }, c)
    else c.append now id r item
  | some _, none => c.append now id r item

/-- Drops what is older than the active range of an item. -/
def trim (c : Cache) (now : Int) (item : Item) : Item × Cache :=
  if item.activeRange = 0 then (item, c)
  else
    match item.history.trim (item.boundary now) with
    | (some sec, gone, h) =>
      ({ item with history := h, coveredFrom := some (sec + 1), cachedAll := false },
        (c.release gone).2)
    | (none, _, _) => (item, c)

end HistoryCache.Cache
