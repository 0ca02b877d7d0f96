import HistoryCache.Cache.Ingest
import HistoryCache.Operation
import HistoryCache.Store

/-!
# The service

A cache, the store behind it, a clock and the handles by which the cache is used.  A handle is on or
off; with a handle that is off everything goes past the cache.

The cache is let go of while a request reads the store, and others may then do what they like.  All
that this changes is how the questions of a request are answered, so the operations take a
`Backend`: the plain one asks the store and no more (`Service.plain`), others may change the whole
service before and after they ask it.  A backend has a state of its own beside the service.
-/

namespace HistoryCache

structure Service where
  cache : Cache
  store : Store := {}
  now : Int
  /-- For each handle that was made, whether it is on; `none` for one that was given up. -/
  handles : List (Option Bool) := []

/-- How questions to the store are answered. -/
abbrev Backend (σ : Type) :=
  StoreRead → Service × σ → Except StoreFailure (List Record) × Service × σ

namespace Service

variable {σ : Type}

/-- A service with an empty store and one handle, which is off. -/
def new (config : Config) (now : Int) : Except ConfigFailure Service := do
  config.validate
  return { cache := Cache.new config, now := now, handles := [some false] }

/-! ## Handles -/

/-- Whether a handle is on, if there is such a handle. -/
def enabled? (s : Service) (handle : Nat) : Option Bool := s.handles[handle]?.join

def setHandle (s : Service) (handle : Nat) (state : Option Bool) : Service :=
  { s with handles := s.handles.set handle state }

/-- Turns a handle on, unless the cache cannot be used at all. -/
def enable (s : Service) (handle : Nat) : Service :=
  s.setHandle handle (some s.cache.isUsable)

def disable (s : Service) (handle : Nat) : Service := s.setHandle handle (some false)

/-- How a handle shows in text. -/
def describe (s : Service) (enabled : Bool) : String :=
  "ValueCache \x7b size: " ++ toString s.cache.config.size ++ ", enabled: " ++
    (if enabled then "true" else "false") ++ " \x7d"

/-- What is told of the state, if the cache can be used. -/
def observe (s : Service) : Option Snapshot × Service :=
  if s.cache.isUsable then
    let (stats, cache) := s.cache.stats
    (some { stats := stats, budget := cache.budget, items := cache.itemStats },
      { s with cache := cache })
  else (none, s)

/-! ## Reading the store -/

/-- Asks the store and does nothing else. -/
def plain : Backend σ := fun question (s, x) =>
  let (answer, store) := s.store.read question
  (answer, { s with store := store }, x)

/-- Counts a question that is about to be put. -/
def countRead (s : Service) : StoreRead → Service
  | .byTime .. =>
    { s with cache := s.cache.measure fun m => { m with readsByTime := m.readsByTime + 1 } }
  | .byCount .. =>
    { s with cache := s.cache.measure fun m => { m with readsByCount := m.readsByCount + 1 } }

/-- Puts the questions of a reading to a backend. -/
def perform {α : Type} (backend : Backend σ) (reading : Reading α) (s : Service × σ) :
    Except StoreFailure α × Service × σ :=
  reading.perform (fun question (s, x) => backend question (s.countRead question, x)) s

/-! ## Requests and writes -/

/-- Answers a request from the store. -/
def getPast (backend : Backend σ) (q : Request) (s : Service × σ) :
    Except StoreFailure (List Record) × Service × σ :=
  perform backend q.direct s

/-- Answers a request past the cache, with the item held or not. -/
def bypass (backend : Backend σ) (q : Request) (held : Bool) (s : Service × σ) :
    Except StoreFailure (List Record) × Service × σ :=
  let (result, s, x) := getPast backend q s
  (result, { s with cache := s.cache.finishBypass s.now q held result }, x)

/-- Answers a request from the cache. -/
def getThrough (backend : Backend σ) (q : Request) (s : Service × σ) :
    Except StoreFailure (List Record) × Service × σ :=
  let (s, x) := s
  let (next, cache) := s.cache.start s.now q
  let s := { s with cache := cache }
  match next with
  | .answer records => (.ok records, s, x)
  | .bypass held => bypass backend q held (s, x)
  | .fill fill =>
    let (result, s, x) := perform backend fill.reading (s, x)
    let (answer, cache) := s.cache.finishFill s.now q fill result
    let s := { s with cache := cache }
    match answer with
    | some records => (.ok records, s, x)
    | none => bypass backend q true (s, x)

/-- Answers a request on a handle that is on or off. -/
def get (backend : Backend σ) (enabled : Bool) (q : Request) (s : Service × σ) :
    Except StoreFailure (List Record) × Service × σ :=
  if enabled then getThrough backend q s else getPast backend q s

/-- Writes records to the store, and to the cached items if the handle is on.  A write that the
store refuses leaves the cache alone. -/
def add (s : Service) (enabled : Bool) (writes : List ItemRecord) :
    Except StoreFailure Unit × Service :=
  match s.store.append writes with
  | (.error e, store) => (.error e, { s with store := store })
  | (.ok (), store) =>
    let s := { s with store := store }
    (.ok (), if enabled then { s with cache := s.cache.ingest s.now writes } else s)

/-- Requests the removal of items, if the handle is on. -/
def remove (s : Service) (enabled : Bool) (items : List ItemId) : Service :=
  if enabled then { s with cache := items.foldl Cache.requestRemoval s.cache } else s

/-- Empties the cache. -/
def reset (s : Service) : Service := { s with cache := s.cache.reset.log .reset }

/-- Empties the cache, for good as far as one handle is concerned. -/
def destroy (s : Service) (handle : Nat) : Service :=
  let s := s.setHandle handle none
  if s.cache.isUsable then
    let (stats, cache) := s.cache.stats
    { s with
      cache := cache.reset.log (.closed stats.items stats.values stats.hits stats.misses) }
  else s

/-! ## Operations -/

/-- An operation on a handle that is on or off.  `resets` tells whether a reset is done. -/
def call (backend : Backend σ) (enabled resets : Bool) (c : Call) (s : Service × σ) :
    Reply × Service × σ :=
  let (service, x) := s
  match c with
  | .get q =>
    let (result, s) := get backend enabled q s
    (.records (result.mapError .store), s)
  | .last item kind upTo =>
    let (result, s) := get backend enabled (.latest item kind upTo) s
    (.record ((result.mapError .store).map List.head?), s)
  | .add writes =>
    let (result, service) := service.add enabled writes
    (.written (result.mapError .store), service, x)
  | .remove items => (.done, service.remove enabled items, x)
  | .reset => (.done, if resets then service.reset else service, x)
  | .stats =>
    if enabled then
      let (stats, cache) := service.cache.stats
      (.stats (.ok stats), { service with cache := cache }, x)
    else (.stats (.error (.cache .disabled)), s)
  | .memory =>
    (.memory (if enabled then .ok service.cache.budget else .error (.cache .disabled)), s)
  | .items => (.items (if enabled then service.cache.itemStats else []), s)
  | .top n => (.items (if enabled then service.cache.itemStats.take n else []), s)

/-- An operation on the store or the clock. -/
def outside (s : Service) : Outside → Reply × Service
  | .insert item records => (.done, { s with store := s.store.insert item records })
  | .length item kind => (.number (s.store.length item kind), s)
  | .failReads fail => (.done, { s with store := { s.store with readsFail := fail } })
  | .failWrites fail => (.done, { s with store := { s.store with writesFail := fail } })
  | .advance seconds =>
    let now := wrap (s.now + seconds)
    (.time now, { s with now := now })
  | .setNow now => (.time now, { s with now := now })
  | .setLooks looks => (.done, { s with cache := { s.cache with clock := looks } })
  | .metrics => (.text s.cache.telemetry.metrics.text, s)

/-- The steps of a batch on a handle that is on or off, with the state after each. -/
def batch (backend : Backend σ) (enabled : Bool) :
    List BatchStep → Service × σ → List (Reply × Option Snapshot) × Service × σ
  | [], s => ([], s)
  | step :: steps, s =>
    let (reply, s, x) :=
      match step with
      | .call c => call backend enabled enabled c s
      | .outside o =>
        let (reply, service) := s.1.outside o
        (reply, service, s.2)
    let (snapshot, s) := s.observe
    let (replies, s) := batch backend enabled steps (s, x)
    ((reply, snapshot) :: replies, s)

/-- An operation.  Questions are put to `free`, but in a batch that holds the cache to `held`. -/
def execute (free held : Backend σ) (op : Operation) (s : Service × σ) :
    Answer × Service × σ :=
  let (service, x) := s
  let onHandle (handle : Nat) (f : Bool → Answer × Service × σ) : Answer × Service × σ :=
    match service.enabled? handle with
    | some enabled => f enabled
    | none => (.reply .noHandle, s)
  let flag (handle : Nat) (service : Service) : Answer × Service × σ :=
    (.reply (.flag (service.enabled? handle == some true)), service, x)
  match op with
  | .outside o =>
    let (reply, service) := service.outside o
    (.reply reply, service, x)
  | .call handle c =>
    onHandle handle fun enabled =>
      let (reply, s) := call free enabled service.cache.isUsable c s
      (.reply reply, s)
  | .batch handle steps =>
    onHandle handle fun enabled =>
      let (replies, s) := batch (if enabled then held else free) enabled steps s
      (.batch replies, s)
  | .attach handle =>
    onHandle handle fun _ =>
      (.reply (.number service.handles.length),
        { service with handles := service.handles ++ [some false] }, x)
  | .enable handle => onHandle handle fun _ => flag handle (service.enable handle)
  | .disable handle => onHandle handle fun _ => flag handle (service.disable handle)
  | .isEnabled handle => onHandle handle fun _ => flag handle service
  | .describe handle =>
    onHandle handle fun enabled => (.reply (.text (service.describe enabled)), s)
  | .config handle => onHandle handle fun _ => (.reply (.config service.cache.config), s)
  | .destroy handle => onHandle handle fun _ => (.reply .done, service.destroy handle, x)

/-- An operation with nothing of others in between. -/
def step (s : Service) (op : Operation) : Answer × Service :=
  let (answer, s, _) := execute plain plain op (s, ())
  (answer, s)

end Service

end HistoryCache
