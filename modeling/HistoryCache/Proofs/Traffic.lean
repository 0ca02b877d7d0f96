import HistoryCache.Proofs.Interleaving

/-!
# Requests in flight

A request works on the cache in short steps and waits for the store in between, a step and a wait in
turn.  A `Traffic` is a service together with the requests that wait, and `Traffic.Step` is a single
step of one of them, of a write or of a removal.  The requests are in no order: any of them may go on
next.  What the cache does not look at, the clock and the store among it, may change at any time, and
the store answers as it likes.

* `Traffic.Kept`: what is kept by each of the moves that operations are made of.  They are steps, but a
  reset is one move, and nothing else happens in between that touches more than the telemetry.
* `Reachable.traffic`: a service that operations lead to, whoever interferes, is one that moves lead to,
  and so one that steps lead to (`Traffic.possible_of_reachable`).
-/

namespace HistoryCache

/-- A request that waits for the store. -/
inductive Flight where
  /-- It holds its item and reads what is missing below the history. -/
  | filling (q : Request) (fill : Fill) (rest : Reading Fetched)
  /-- It reads past the cache, with its item held or not. -/
  | passing (q : Request) (held : Bool) (rest : Reading (List Record))

/-- What a request waits for after its first step, if that did not answer it. -/
def Start.flight? (q : Request) : Start → Option Flight
  | answer _ => none
  | fill f => some (.filling q f f.reading)
  | bypass held => some (.passing q held q.direct)

/-- How a reading may end: it has its result, or the store fails. -/
inductive Reading.Ends {α : Type} : Reading α → Except StoreFailure α → Prop
  | done (a : α) : Ends (.done a) (.ok a)
  | fails (question : StoreRead) (next : List Record → Reading α) (e : StoreFailure) :
      Ends (.ask question next) (.error e)

/-- The store answers a request, which goes on with its reading. -/
inductive Flight.Reads : Flight → Flight → Prop
  | filling (q : Request) (fill : Fill) (question : StoreRead)
      (next : List Record → Reading Fetched) (records : List Record) :
      Reads (.filling q fill (.ask question next)) (.filling q fill (next records))
  | passing (q : Request) (held : Bool) (question : StoreRead)
      (next : List Record → Reading (List Record)) (records : List Record) :
      Reads (.passing q held (.ask question next)) (.passing q held (next records))

/-- A service with the requests that wait for the store. -/
structure Traffic where
  service : Service
  flights : List Flight

namespace Traffic

abbrev cache (w : Traffic) : Cache := w.service.cache

/-- What may happen next. -/
inductive Step : Traffic → Traffic → Prop
  /-- Something else than the items, the texts and the budget changes. -/
  | elsewhere (s t : Service) (flights : List Flight) (hitems : t.cache.items = s.cache.items)
      (hstrings : t.cache.strings = s.cache.strings) (hbudget : t.cache.budget = s.cache.budget) :
      Step ⟨s, flights⟩ ⟨t, flights⟩
  /-- Records that were written to the store go to the cached items. -/
  | ingests (s : Service) (flights : List Flight) (writes : List ItemRecord) :
      Step ⟨s, flights⟩ ⟨{ s with cache := s.cache.ingest s.now writes }, flights⟩
  | removes (s : Service) (flights : List Flight) (id : ItemId) :
      Step ⟨s, flights⟩ ⟨{ s with cache := s.cache.requestRemoval id }, flights⟩
  | begins (s : Service) (flights : List Flight) (q : Request) (next : Start) (c : Cache)
      (hstart : s.cache.start s.now q = (next, c)) :
      Step ⟨s, flights⟩ ⟨{ s with cache := c }, (next.flight? q).toList ++ flights⟩
  | reads (s : Service) (before after : List Flight) (f g : Flight) (hreads : f.Reads g) :
      Step ⟨s, before ++ f :: after⟩ ⟨s, before ++ g :: after⟩
  /-- A request answers with what it read below the history of its item. -/
  | fills (s : Service) (before after : List Flight) (q : Request) (fill : Fill)
      (rest : Reading Fetched) (result : Except StoreFailure Fetched) (hends : rest.Ends result)
      (records : List Record) (c : Cache)
      (hfinish : s.cache.finishFill s.now q fill result = (some records, c)) :
      Step ⟨s, before ++ .filling q fill rest :: after⟩ ⟨{ s with cache := c }, before ++ after⟩
  /-- A request that could not extend the history of its item goes past the cache. -/
  | loses (s : Service) (before after : List Flight) (q : Request) (fill : Fill)
      (rest : Reading Fetched) (result : Except StoreFailure Fetched) (hends : rest.Ends result)
      (c : Cache) (hfinish : s.cache.finishFill s.now q fill result = (none, c)) :
      Step ⟨s, before ++ .filling q fill rest :: after⟩
        ⟨{ s with cache := c }, before ++ .passing q true q.direct :: after⟩
  /-- A request that went past the cache is done. -/
  | passes (s : Service) (before after : List Flight) (q : Request) (held : Bool)
      (rest : Reading (List Record)) (result : Except StoreFailure (List Record))
      (hends : rest.Ends result) :
      Step ⟨s, before ++ .passing q held rest :: after⟩
        ⟨{ s with cache := s.cache.finishBypass s.now q held result }, before ++ after⟩

/-- What steps lead to from a new service. -/
inductive Possible (config : Config) : Traffic → Prop
  | new (now : Int) (s : Service) (hnew : Service.new config now = .ok s) : Possible config ⟨s, []⟩
  | step (w w' : Traffic) (hw : Possible config w) (hstep : Step w w') : Possible config w'

end Traffic

/-! ## What operations are made of -/

/-- The number of times that the log has told of the full cache. -/
def Cache.warnings (c : Cache) : Nat := c.telemetry.events.count .fullyUsed

/-- Two caches differ in their telemetry and in what their clocks will show, and no warning is given. -/
structure Cache.Aside (c d : Cache) : Prop where
  cache : d = { c with telemetry := d.telemetry, clock := d.clock }
  warnings : d.warnings = c.warnings

namespace Cache.Aside

theorem refl {c : Cache} : Aside c c := ⟨rfl, rfl⟩

theorem setClock (c : Cache) (looks : List Looks) : Aside c { c with clock := looks } := ⟨rfl, rfl⟩

theorem measure (c : Cache) (f : Metrics → Metrics) : Aside c (c.measure f) := ⟨rfl, rfl⟩

theorem log (c : Cache) {e : Event} (he : e ≠ .fullyUsed) : Aside c (c.log e) :=
  ⟨rfl, List.count_cons_of_ne he⟩

end Cache.Aside

/-- Beside that, the gauges of the items and of the mode stay as they are. -/
structure Cache.Notes (c d : Cache) : Prop extends Cache.Aside c d where
  items : d.telemetry.metrics.items = c.telemetry.metrics.items
  lowMemory : d.telemetry.metrics.lowMemory = c.telemetry.metrics.lowMemory

namespace Cache.Notes

theorem refl {c : Cache} : Notes c c := ⟨.refl, rfl, rfl⟩

theorem of_eq {c d : Cache} (h : d = c) : Notes c d := h ▸ refl

theorem setClock (c : Cache) (looks : List Looks) : Notes c { c with clock := looks } :=
  ⟨.setClock c looks, rfl, rfl⟩

theorem measure (c : Cache) {f : Metrics → Metrics} (hitems : ∀ m, (f m).items = m.items)
    (hlow : ∀ m, (f m).lowMemory = m.lowMemory) : Notes c (c.measure f) :=
  ⟨.measure c f, hitems _, hlow _⟩

theorem log (c : Cache) {e : Event} (he : e ≠ .fullyUsed) : Notes c (c.log e) := ⟨.log c he, rfl, rfl⟩

end Cache.Notes

section Operations

variable {P : Traffic → Prop} {σ : Type} {K : σ → Prop} {b : Backend σ} {s : Service} {x : σ}
  {flights : List Flight}

/-- Steps keep `P`. -/
def Traffic.Closed (P : Traffic → Prop) : Prop := ∀ w w', Traffic.Step w w' → P w → P w'

/-- The moves that operations are made of keep `P`. -/
structure Traffic.Kept (P : Traffic → Prop) : Prop where
  aside {s t : Service} {flights : List Flight} (hs : P ⟨s, flights⟩)
    (hnotes : s.cache.Notes t.cache) : P ⟨t, flights⟩
  ingests {s : Service} {flights : List Flight} (writes : List ItemRecord) (hs : P ⟨s, flights⟩) :
    P ⟨{ s with cache := s.cache.ingest s.now writes }, flights⟩
  removes {s : Service} {flights : List Flight} (id : ItemId) (hs : P ⟨s, flights⟩) :
    P ⟨{ s with cache := s.cache.requestRemoval id }, flights⟩
  resets {s : Service} {flights : List Flight} (hs : P ⟨s, flights⟩) :
    P ⟨{ s with cache := s.cache.reset }, flights⟩
  begins {s : Service} {flights : List Flight} {next : Start} {c : Cache} (q : Request)
    (hstart : s.cache.start s.now q = (next, c)) (hs : P ⟨s, flights⟩) :
    P ⟨{ s with cache := c }, (next.flight? q).toList ++ flights⟩
  reads {s : Service} {flights : List Flight} {f g : Flight} (hreads : f.Reads g)
    (hs : P ⟨s, f :: flights⟩) : P ⟨s, g :: flights⟩
  fills {s : Service} {flights : List Flight} {q : Request} {fill : Fill} {rest : Reading Fetched}
    {result : Except StoreFailure Fetched} {records : List Record} {c : Cache}
    (hends : rest.Ends result) (hfinish : s.cache.finishFill s.now q fill result = (some records, c))
    (hs : P ⟨s, .filling q fill rest :: flights⟩) : P ⟨{ s with cache := c }, flights⟩
  loses {s : Service} {flights : List Flight} {q : Request} {fill : Fill} {rest : Reading Fetched}
    {result : Except StoreFailure Fetched} {c : Cache} (hends : rest.Ends result)
    (hfinish : s.cache.finishFill s.now q fill result = (none, c))
    (hs : P ⟨s, .filling q fill rest :: flights⟩) :
    P ⟨{ s with cache := c }, .passing q true q.direct :: flights⟩
  passes {s : Service} {flights : List Flight} {q : Request} {held : Bool}
    {rest : Reading (List Record)} {result : Except StoreFailure (List Record)}
    (hends : rest.Ends result) (hs : P ⟨s, .passing q held rest :: flights⟩) :
    P ⟨{ s with cache := s.cache.finishBypass s.now q held result }, flights⟩

/-- What is kept when an item is removed is kept when several are. -/
theorem Traffic.removals (hremoves : ∀ (s : Service) (id : ItemId), P ⟨s, flights⟩ →
      P ⟨{ s with cache := s.cache.requestRemoval id }, flights⟩)
    (ids : List ItemId) (hs : P ⟨s, flights⟩) :
    P ⟨{ s with cache := ids.foldl Cache.requestRemoval s.cache }, flights⟩ := by
  induction ids generalizing s with
  | nil => exact hs
  | cons id ids ih => exact ih (hremoves s id hs)

namespace Traffic.Closed

theorem elsewhere (hP : Traffic.Closed P) {t : Service} (hs : P ⟨s, flights⟩)
    (hitems : t.cache.items = s.cache.items) (hstrings : t.cache.strings = s.cache.strings)
    (hbudget : t.cache.budget = s.cache.budget) : P ⟨t, flights⟩ :=
  hP _ _ (.elsewhere s t flights hitems hstrings hbudget) hs

/-- Moves are made of steps. -/
theorem kept (hP : Traffic.Closed P) : Traffic.Kept P where
  aside hs hnotes := by
    refine hP.elsewhere hs ?_ ?_ ?_ <;> rw [hnotes.cache]
  ingests writes hs := hP _ _ (.ingests _ _ writes) hs
  removes id hs := hP _ _ (.removes _ _ id) hs
  resets {s flights} hs :=
    hP.elsewhere (removals (fun s id => hP _ _ (.removes s flights id)) s.cache.ids hs) rfl rfl rfl
  begins q hstart hs := hP _ _ (.begins _ _ q _ _ hstart) hs
  reads hreads hs := hP _ _ (.reads _ [] _ _ _ hreads) hs
  fills hends hfinish hs := hP _ _ (.fills _ [] _ _ _ _ _ hends _ _ hfinish) hs
  loses hends hfinish hs := hP _ _ (.loses _ [] _ _ _ _ _ hends _ hfinish) hs
  passes hends hs := hP _ _ (.passes _ [] _ _ _ _ _ hends) hs

end Traffic.Closed

/-- Whoever answers a question keeps `P`, for all requests that wait meanwhile. -/
def Carries (P : Traffic → Prop) (K : σ → Prop) (b : Backend σ) : Prop :=
  ∀ question s x flights, P ⟨s, flights⟩ → K x →
    P ⟨(b question (s, x)).2.1, flights⟩ ∧ K (b question (s, x)).2.2

/-- What is to be shown of a service and the state of its backend, with some requests that wait. -/
abbrev Carried (P : Traffic → Prop) (K : σ → Prop) (flights : List Flight) (t : Service × σ) : Prop :=
  P ⟨t.1, flights⟩ ∧ K t.2

namespace Traffic.Kept

variable (hP : Traffic.Kept P)
include hP

/-- A reading that goes on in flight. -/
theorem perform {α : Type} (hb : Carries P K b) (flightsOf : Reading α → List Flight)
    (hreads : ∀ s question next records, P ⟨s, flightsOf (.ask question next)⟩ →
      P ⟨s, flightsOf (next records)⟩)
    (r : Reading α) (hs : P ⟨s, flightsOf r⟩) (hx : K x) :
    ∃ rest, rest.Ends (Service.perform b r (s, x)).1 ∧
      Carried P K (flightsOf rest) (Service.perform b r (s, x)).2 := by
  rw [Service.perform]
  -- with every answer the request in flight is one question further
  induction r generalizing s x with
  | done a => exact ⟨_, .done a, hs, hx⟩
  | ask question next ih =>
    have hcounted : P ⟨s.countRead question, flightsOf (.ask question next)⟩ := by
      cases question <;> exact hP.aside hs (.measure _ (fun _ => rfl) fun _ => rfl)
    obtain ⟨ht, hy⟩ := hb question (s.countRead question) x _ hcounted hx
    rw [Reading.perform]
    simp only []
    generalize b question (s.countRead question, x) = answered at ht hy
    obtain ⟨answer, t, y⟩ := answered
    cases answer with
    | error e => exact ⟨_, .fails question next e, ht, hy⟩
    | ok records => exact ih records (hreads t question next records ht) hy

theorem getPast (hb : Carries P K b) (q : Request) (hs : P ⟨s, flights⟩) (hx : K x) :
    Carried P K flights (Service.getPast b q (s, x)).2 := by
  obtain ⟨-, -, h⟩ := hP.perform hb (fun _ => flights) (fun _ _ _ _ h => h) q.direct hs hx
  exact h

theorem bypass (hb : Carries P K b) (q : Request) (held : Bool)
    (hs : P ⟨s, .passing q held q.direct :: flights⟩) (hx : K x) :
    Carried P K flights (Service.bypass b q held (s, x)).2 := by
  obtain ⟨rest, hends, ht, hy⟩ := hP.perform hb (fun r => .passing q held r :: flights)
    (fun s question next records h =>
      hP.reads (.passing q held question next records) h) q.direct hs hx
  exact ⟨hP.passes hends ht, hy⟩

theorem getThrough (hb : Carries P K b) (q : Request) (hs : P ⟨s, flights⟩) (hx : K x) :
    Carried P K flights (Service.getThrough b q (s, x)).2 := by
  rw [Service.getThrough]
  simp only []
  generalize hstart : s.cache.start s.now q = started
  obtain ⟨next, c⟩ := started
  have hbegun := hP.begins q hstart hs
  cases next with
  | answer records => exact ⟨hbegun, hx⟩
  | bypass held => exact hP.bypass hb q held hbegun hx
  | fill fill =>
    obtain ⟨rest, hends, ht, hy⟩ := hP.perform hb (fun r => .filling q fill r :: flights)
      (fun s question next records h =>
        hP.reads (.filling q fill question next records) h)
      fill.reading hbegun hx
    simp only []
    generalize Service.perform b fill.reading ({ s with cache := c }, x) = performed
      at hends ht hy
    obtain ⟨result, t, y⟩ := performed
    simp only []
    generalize hfinish : t.cache.finishFill t.now q fill result = finished
    obtain ⟨answer, c'⟩ := finished
    cases answer with
    | some records => exact ⟨hP.fills hends hfinish ht, hy⟩
    | none => exact hP.bypass hb q true (hP.loses hends hfinish ht) hy

theorem get (hb : Carries P K b) (enabled : Bool) (q : Request) (hs : P ⟨s, flights⟩) (hx : K x) :
    Carried P K flights (Service.get b enabled q (s, x)).2 := by
  cases enabled with
  | true => exact hP.getThrough hb q hs hx
  | false => exact hP.getPast hb q hs hx

theorem add (enabled : Bool) (writes : List ItemRecord) (hs : P ⟨s, flights⟩) :
    P ⟨(s.add enabled writes).2, flights⟩ := by
  rw [Service.add]
  split
  · exact hP.aside hs .refl
  · next store _ =>
    have hstored : P ⟨{ s with store := store }, flights⟩ := hP.aside hs .refl
    cases enabled with
    | true => exact hP.ingests writes hstored
    | false => exact hstored

theorem remove (enabled : Bool) (ids : List ItemId) (hs : P ⟨s, flights⟩) :
    P ⟨s.remove enabled ids, flights⟩ := by
  cases enabled with
  | true => exact removals (fun _ id => hP.removes id) ids hs
  | false => exact hs

theorem reset (hs : P ⟨s, flights⟩) : P ⟨s.reset, flights⟩ :=
  hP.aside (hP.resets hs) (.log _ (by simp))

theorem destroy (handle : Nat) (hs : P ⟨s, flights⟩) : P ⟨s.destroy handle, flights⟩ := by
  rw [Service.destroy]
  split
  · have hstats : P ⟨{ s with cache := (s.setHandle handle none).cache.stats.2 }, flights⟩ :=
      hP.aside hs (.measure _ (fun _ => rfl) fun _ => rfl)
    exact hP.aside (hP.resets hstats) (.log _ (by simp))
  · exact hP.aside hs .refl

theorem outside (o : Outside) (hs : P ⟨s, flights⟩) : P ⟨(s.outside o).2, flights⟩ := by
  cases o with
  | setLooks looks => exact hP.aside hs (.setClock s.cache looks)
  | _ => exact hP.aside hs .refl

theorem observe (hs : P ⟨s, flights⟩) : P ⟨s.observe.2, flights⟩ := by
  rw [Service.observe]
  split
  · exact hP.aside hs (.measure _ (fun _ => rfl) fun _ => rfl)
  · exact hs

theorem call (hb : Carries P K b) (enabled resets : Bool) (c : Call) (hs : P ⟨s, flights⟩)
    (hx : K x) : Carried P K flights (Service.call b enabled resets c (s, x)).2 := by
  cases c with
  | get q => exact hP.get hb enabled q hs hx
  | last item kind upTo => exact hP.get hb enabled _ hs hx
  | add writes => exact ⟨hP.add enabled writes hs, hx⟩
  | remove items => exact ⟨hP.remove enabled items hs, hx⟩
  | reset =>
    cases resets with
    | true => exact ⟨hP.reset hs, hx⟩
    | false => exact ⟨hs, hx⟩
  | stats =>
    cases enabled with
    | true => exact ⟨hP.aside hs (.measure _ (fun _ => rfl) fun _ => rfl), hx⟩
    | false => exact ⟨hs, hx⟩
  | memory | items | top => exact ⟨hs, hx⟩

theorem batch (hb : Carries P K b) (enabled : Bool) (steps : List BatchStep)
    (hs : P ⟨s, flights⟩) (hx : K x) :
    Carried P K flights (Service.batch b enabled steps (s, x)).2 := by
  induction steps generalizing s x with
  | nil => exact ⟨hs, hx⟩
  | cons step steps ih =>
    cases step with
    | call c =>
      obtain ⟨ht, hy⟩ := hP.call hb enabled enabled c hs hx
      exact ih (hP.observe ht) hy
    | outside o => exact ih (hP.observe (hP.outside o hs)) hx

/-- **An operation** keeps what its moves keep. -/
theorem execute {free held : Backend σ} (hfree : Carries P K free) (hheld : Carries P K held)
    (op : Operation) (hs : P ⟨s, flights⟩) (hx : K x) :
    Carried P K flights (Service.execute free held op (s, x)).2 := by
  have hsame : ∀ t : Service, t.cache = s.cache → Carried P K flights (t, x) := fun t hcache =>
    ⟨hP.aside hs (.of_eq hcache), hx⟩
  unfold Service.execute
  cases op with
  | outside o => exact ⟨hP.outside o hs, hx⟩
  | call handle c =>
    dsimp only
    split
    · exact hP.call hfree _ _ c hs hx
    · exact ⟨hs, hx⟩
  | batch handle steps =>
    dsimp only
    split
    · next enabled _ =>
      cases enabled with
      | true => exact hP.batch hheld true steps hs hx
      | false => exact hP.batch hfree false steps hs hx
    · exact ⟨hs, hx⟩
  | destroy handle =>
    dsimp only
    split
    · exact ⟨hP.destroy handle hs, hx⟩
    · exact ⟨hs, hx⟩
  | attach handle | enable handle | disable handle | isEnabled handle | describe handle
  | config handle =>
    dsimp only
    split
    · exact hsame _ rfl
    · exact hsame _ rfl

variable {answering : Answering} {permits : Service → Operation → Prop}
  (hanswers : ∀ question s answer t, answering question s answer t →
    t.cache = s.cache)
include hanswers

theorem carries {M : Service → Service → Prop}
    (hM : ∀ s t flights, M s t → P ⟨s, flights⟩ → P ⟨t, flights⟩) (hb : Admits answering M b) :
    Carries P (fun _ => True) b := by
  intro question s x flights hs _
  obtain ⟨t, u, hst, hanswer, hu⟩ := hb question s x
  have hcache := hanswers _ _ _ _ hanswer
  have ht := hP.aside (hM s t flights hst hs) (.of_eq hcache)
  exact ⟨hM u _ flights hu ht, trivial⟩

theorem does {M : Service → Service → Prop}
    (hM : ∀ s t flights, M s t → P ⟨s, flights⟩ → P ⟨t, flights⟩) {t : Service}
    (h : Does answering permits M s t) (hs : P ⟨s, flights⟩) : P ⟨t, flights⟩ := by
  obtain ⟨σ, free, held, op, x, hfree, hheld, -, rfl⟩ := h
  have hEq : ∀ s t flights, s = t → P ⟨s, flights⟩ → P ⟨t, flights⟩ := fun s t _ hst hs => hst ▸ hs
  exact (hP.execute (x := x) (hP.carries hanswers hM hfree) (hP.carries hanswers hEq hheld) op hs
    trivial).1

theorem meanwhile (depth : Nat) : ∀ s t flights, Meanwhile answering permits depth s t →
    P ⟨s, flights⟩ → P ⟨t, flights⟩ := by
  induction depth with
  | zero => exact fun s t flights hst hs => hst ▸ hs
  | succ depth ih =>
    intro s t flights hst hs
    induction hst with
    | refl => exact hs
    | tail _ hdoes ihs => exact hP.does hanswers ih hdoes ihs

end Traffic.Kept

/-- Notes the services in which questions are put, each with requests that wait there. -/
theorem Carries.watched (hb : Carries P (fun _ => True) b) :
    Carries P (fun x : σ × List Service => ∀ s ∈ x.2, ∃ flights, P ⟨s, flights⟩) (watched b) := by
  intro question s ⟨x, seen⟩ flights hs hseen
  refine ⟨(hb question s x flights hs trivial).1, fun s' hs' => ?_⟩
  rcases List.mem_cons.1 hs' with rfl | hs'
  · exact ⟨flights, hs⟩
  · exact hseen s' hs'

/-- **A service that operations lead to** is, with some requests in flight, one that moves lead to. -/
theorem Reachable.traffic (hP : Traffic.Kept P) {answering : Answering}
    {permits : Service → Operation → Prop} {initial : Service → Prop}
    (hanswers : ∀ question s answer t, answering question s answer t → t.cache = s.cache)
    (hinitial : ∀ s, initial s → P ⟨s, []⟩) (hs : Reachable answering permits initial s) :
    ∃ flights, P ⟨s, flights⟩ := by
  induction hs with
  | initial s hs => exact ⟨[], hinitial s hs⟩
  | after s t depth _ hdoes ih =>
    obtain ⟨flights, hs⟩ := ih
    exact ⟨flights, hP.does hanswers (hP.meanwhile hanswers depth) hdoes hs⟩
  | during s t depth _ σ free held op x hfree hheld hop hseen ih =>
    obtain ⟨flights, hs⟩ := ih
    have hEq : ∀ s t flights, s = t → P ⟨s, flights⟩ → P ⟨t, flights⟩ :=
      fun s t _ hst hs => hst ▸ hs
    -- the services in which questions are put are noted by the backend itself
    have hfree' := (hP.carries hanswers (hP.meanwhile hanswers depth) hfree).watched
    have hheld' := (hP.carries hanswers hEq hheld).watched
    have hall := (hP.execute (x := (x, [])) hfree' hheld' op hs (by simp)).2
    exact hall t hseen

end Operations

/-- The traffic that steps lead to from a new service. -/
theorem Traffic.closed_possible (config : Config) : Traffic.Closed (Traffic.Possible config) :=
  fun w w' hstep hw => .step w w' hw hstep

/-- An operation whose questions are answered and nothing else is done. -/
theorem Traffic.Possible.execute {config : Config} {σ : Type} {b : Backend σ}
    (hb : ∀ question s x, (b question (s, x)).2.1 = s) {s : Service} (hs : Possible config ⟨s, []⟩)
    (op : Operation) (x : σ) : Possible config ⟨(Service.execute b b op (s, x)).2.1, []⟩ := by
  have hcarries : Carries (Possible config) (fun _ => True) b := fun question s x flights hs _ => by
    rw [hb]
    exact ⟨hs, trivial⟩
  exact ((closed_possible config).kept.execute hcarries hcarries op hs trivial).1

end HistoryCache
