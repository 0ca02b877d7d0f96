import HistoryCache.Proofs.Holding
import HistoryCache.Proofs.Reading

/-!
# The course of a request

A request on a handle that is on takes one of four courses (`Got`): it is answered from what is
cached, it goes past the cache, it extends the history of its item and is answered then, or it fails
to and goes past the cache after all.  Between its steps others do what they like.

* `getThrough_got`: there is no other course.
* `Got.holds`: whoever held an item before the request still does after it.
-/

namespace HistoryCache

section

variable (answering : Answering) (I : Service → Prop) (R : Service → Service → Prop)

/-- What a request may come to: its answer, and the service after it. -/
inductive Got (q : Request) (s : Service) :
    Except StoreFailure (List Record) → Service → Prop
  | answered (records : List Record) (c : Cache)
      (hstarted : Cache.Started s.now q s.cache (.answer records) c) :
      Got q s (.ok records) { s with cache := c }
  | past (held : Bool) (c : Cache) (result : Except StoreFailure (List Record)) (t : Service)
      (hstarted : Cache.Started s.now q s.cache (.bypass held) c)
      (hread : q.direct.Performed answering I R { s with cache := c } result t) :
      Got q s result { t with cache := t.cache.finishBypass t.now q held result }
  | filled (fill : Fill) (c : Cache) (fetched : Fetched) (t : Service) (item : Item)
      (records : List Record) (c' : Cache)
      (hstarted : Cache.Started s.now q s.cache (.fill fill) c)
      (hread : fill.reading.Performed answering I R { s with cache := c } (.ok fetched) t)
      (hitem : t.cache.items[q.item]? = some item) (horder : InOrder fetched.records)
      (hfinished : Cache.Finished t.now q fill item t.cache (.ok fetched) (some records) c') :
      Got q s (.ok records) { t with cache := c' }
  | lost (fill : Fill) (c : Cache) (fetched : Except StoreFailure Fetched) (t : Service)
      (item : Item) (c' : Cache) (result : Except StoreFailure (List Record)) (u : Service)
      (hstarted : Cache.Started s.now q s.cache (.fill fill) c)
      (hread : fill.reading.Performed answering I R { s with cache := c } fetched t)
      (hitem : t.cache.items[q.item]? = some item)
      (hfinished : Cache.Finished t.now q fill item t.cache fetched none c')
      (hread' : q.direct.Performed answering I R { t with cache := c' } result u) :
      Got q s result { u with cache := u.cache.finishBypass u.now q true result }

end

namespace Cache

variable {now : Int} {q : Request} {c c' : Cache}

theorem Started.pinned {fill : Fill} (h : Started now q c (.fill fill) c') :
    ∃ item, c'.items[q.item]? = some item ∧ 0 < item.pins ∧ item.kind = q.kind := by
  cases h with
  | fills item _ _ _ _ hkind _ hup => exact ⟨_, hup.1, Nat.succ_pos _, hkind⟩

/-- What is read below a history is in order, and as the answers are. -/
theorem Started.fetches {fill : Fill} (h : Started now q c (.fill fill) c') {G : Record → Prop}
    {A : StoreRead → List Record → Prop} (hA : q.Brings G A) :
    fill.reading.Yields A fun fetched => InOrder fetched.records ∧ ∀ r ∈ fetched.records, G r := by
  cases h with
  | fills item _ _ _ _ _ hmissing _ => exact Request.yields_fetch hA hmissing

end Cache

section

variable {answering : Answering} {I : Service → Prop} {R : Service → Service → Prop}
  {σ : Type} {K : σ → Prop}

/-- What was read below a history is in order. -/
theorem inOrder_of_fill {q : Request} {s t u : Service} {c : Cache} {fill : Fill}
    {fetched : Except StoreFailure Fetched}
    (hstarted : Cache.Started s.now q s.cache (.fill fill) c)
    (hread : fill.reading.Performed answering I R t fetched u) :
    ∀ found, fetched = .ok found → InOrder found.records := by
  intro found hfound
  have hfetches := hstarted.fetches (G := fun _ => True) (A := Asked answering I R t u)
    fun _ _ _ _ _ _ _ => trivial
  exact (hread.yields found hfound _ hfetches).1

/-- A request that goes past the cache reads the store. -/
theorem bypass_performed (hrely : Rely answering I R) {b : Backend σ} (hb : Keeps answering I R K b)
    {q : Request} {held : Bool} {s s' : Service} {x x' : σ}
    {result : Except StoreFailure (List Record)} (hs : I s) (hx : K x)
    (h : Service.bypass b q held (s, x) = (result, s', x')) :
    ∃ t, q.direct.Performed answering I R s result t ∧
      s' = { t with cache := t.cache.finishBypass t.now q held result } ∧ K x' := by
  rw [Service.bypass, Service.getPast] at h
  generalize hperform : Service.perform b q.direct (s, x) = performed at h
  obtain ⟨result', t, y⟩ := performed
  obtain ⟨hread, hK⟩ := hb.perform hrely q.direct hs hx hperform
  cases h
  exact ⟨t, hread, rfl, hK⟩

/-- **A request** takes one of its courses, if `I` holds after each of its steps but the last. -/
theorem getThrough_got (hrely : Rely answering I R)
    (hsorted : ∀ s, I s → s.cache.Sound fun _ _ _ => True)
    (hholds : ∀ s t, R s t → Cache.Holds none (fun _ _ => False) s.cache t.cache)
    {b : Backend σ} (hb : Keeps answering I R K b) {q : Request} {s s' : Service} {x x' : σ}
    {result : Except StoreFailure (List Record)} (hs : I s) (hx : K x)
    (hstart : ∀ next c, (∀ records, next ≠ .answer records) →
      Cache.Started s.now q s.cache next c → I { s with cache := c })
    (hlost : ∀ fill c fetched t item c', Cache.Started s.now q s.cache (.fill fill) c →
      fill.reading.Performed answering I R { s with cache := c } fetched t →
      t.cache.items[q.item]? = some item →
      Cache.Finished t.now q fill item t.cache fetched none c' → I { t with cache := c' })
    (h : Service.getThrough b q (s, x) = (result, s', x')) :
    Got answering I R q s result s' ∧ K x' := by
  rw [Service.getThrough] at h
  simp only [] at h
  generalize hnext : s.cache.start s.now q = started at h
  obtain ⟨next, c⟩ := started
  have hstarted := Cache.start_spec (hsorted s hs).sorted hnext
  cases next with
  | answer records =>
    cases h
    exact ⟨.answered records c hstarted, hx⟩
  | bypass held =>
    have hI := hstart _ c (fun _ => by simp) hstarted
    obtain ⟨u, hread, rfl, hK⟩ := bypass_performed hrely hb hI hx h
    exact ⟨.past held c result u hstarted hread, hK⟩
  | fill fill =>
    have hI := hstart _ c (fun _ => by simp) hstarted
    simp only [] at h
    generalize hperform : Service.perform b fill.reading ({ s with cache := c }, x) = performed at h
    obtain ⟨fetched, t, y⟩ := performed
    obtain ⟨hread, hy⟩ := hb.perform hrely fill.reading hI hx hperform
    -- the item was held while it was read for
    obtain ⟨item₀, hid₀, hpins, -⟩ := hstarted.pinned
    obtain ⟨item, hid, -⟩ := (hholds _ _ hread.leads).later q.item item₀ hid₀ hpins
    have ho := inOrder_of_fill hstarted hread
    simp only [] at h
    generalize hfinish : t.cache.finishFill t.now q fill fetched = finished at h
    obtain ⟨answer, c'⟩ := finished
    have hfinished :=
      Cache.finishFill_spec hid ((hsorted t hread.after).sorted _ item hid) ho hfinish
    cases answer with
    | some records =>
      cases h
      cases hfinished with
      | answers found g z _ hstate hwrites htidy hrecords hanswers hup =>
        exact ⟨.filled fill c found t item _ c' hstarted hread hid (ho found rfl)
          (.answers found g z c' hstate hwrites htidy hrecords hanswers hup), hy⟩
    | none =>
      obtain ⟨u, hread', rfl, hK⟩ :=
        bypass_performed hrely hb (hlost fill c fetched t item c' hstarted hread hid hfinished) hy h
      exact ⟨.lost fill c fetched t item c' result u hstarted hread hid hfinished hread', hK⟩

/-- **Whoever held** an item before a request holds it after, and finds there what was there before
and what was written to the store meanwhile (`N`). -/
theorem Got.holds {N : Store → Store → ItemId → Record → Prop}
    (hsorted : ∀ s, I s → s.cache.Sound fun _ _ _ => True)
    (hholds : ∀ s t, R s t → Cache.Holds none (N s.store t.store) s.cache t.cache)
    (htrans : ∀ {a b c id r}, N a c id r → N a b id r ∨ N b c id r)
    (hrefl : ∀ {a id r}, ¬ N a a id r) {q : Request} {s s' : Service}
    {result : Except StoreFailure (List Record)} (hs : I s)
    (h : Got answering I R q s result s') :
    Cache.Holds none (N s.store s'.store) s.cache s'.cache := by
  have hstart : ∀ {next : Start} {c : Cache}, Cache.Started s.now q s.cache next c →
      Cache.Holds (next.holds q) (fun _ _ => False) s.cache c := fun h =>
    Cache.Holds.started (hsorted s hs) h
  cases h with
  | answered records c hstarted => exact (hstart hstarted).mono fun id r hN => hrefl hN
  | past held c _ t hstarted hp =>
    have h1 := (hstart hstarted).trans (hholds _ _ hp.leads)
    exact (h1.bypassed (hsorted t hp.after) result).mono fun id r hN => Or.inr hN
  | filled fill c fetched t item records c' hstarted hp hitem horder hfinished =>
    have h1 := (hstart hstarted).trans (hholds _ _ hp.leads)
    exact (h1.filled hitem ((hsorted t hp.after).sorted _ item hitem) horder hfinished).mono
      fun id r hN => Or.inr hN
  | lost fill c fetched t item c' _ u hstarted hp hitem hfinished hp' =>
    have h1 := ((hstart hstarted).trans (hholds _ _ hp.leads)).trans
      (Cache.Holds.lost hitem hfinished)
    have h2 : Cache.Holds ((Start.bypass true).holds q) _ s.cache u.cache :=
      h1.trans (hholds _ _ hp'.leads)
    refine (h2.bypassed (hsorted u hp'.after) result).mono fun id r hN => ?_
    exact (htrans hN).imp (fun hN => Or.inl (Or.inr hN)) fun hN => hN

/-- What a reading below the history of an item brings may enter it. -/
def Extends (answering : Answering) (I : Service → Prop) (R : Service → Service → Prop)
    (C : Store → Contents) (q : Request) (s : Service) : Prop :=
  ∀ fill c fetched t item, Cache.Started s.now q s.cache (.fill fill) c →
    fill.reading.Performed answering I R { s with cache := c } (.ok fetched) t →
    t.cache.items[q.item]? = some item →
    C t.store q.item item.kind
      (Cache.below item.history fetched.records ++ item.history.records)

section Contents

variable {C : Store → Contents} {q : Request} {s : Service}

theorem Extends.finished (h : Extends answering I R C q s) (hC : ∀ store, Thins (C store))
    (hsound : ∀ s, I s → s.cache.Sound (C s.store)) {fill : Fill} {c : Cache}
    {fetched : Except StoreFailure Fetched} {t : Service} {item : Item}
    {answer : Option (List Record)} {c' : Cache}
    (hstarted : Cache.Started s.now q s.cache (.fill fill) c)
    (hread : fill.reading.Performed answering I R { s with cache := c } fetched t)
    (hitem : t.cache.items[q.item]? = some item)
    (hfinished : Cache.Finished t.now q fill item t.cache fetched answer c') :
    c'.Sound (C t.store) := by
  refine (hsound t hread.after).finished (hC _) hitem (fun found hfound => ?_) hfinished
  refine ⟨inOrder_of_fill hstarted hread found hfound, ?_⟩
  subst hfound
  exact h fill c found t item hstarted hread hitem

/-- A request keeps what holds of the contents of cached items. -/
theorem Got.sound (hextends : Extends answering I R C q s) (hC : ∀ store, Thins (C store))
    (hsound : ∀ s, I s → s.cache.Sound (C s.store)) {s' : Service}
    {result : Except StoreFailure (List Record)} (hs : I s)
    (h : Got answering I R q s result s') : s'.cache.Sound (C s'.store) := by
  cases h with
  | answered records c hstarted => exact (hsound s hs).started (hC _) hstarted
  | past held c _ t hstarted hp => exact (hsound t hp.after).finishBypass (hC _) held result
  | filled fill c fetched t item records c' hstarted hp hitem horder hfinished =>
    have hfilled := hextends.finished hC hsound hstarted hp hitem hfinished
    exact hfilled
  | lost fill c fetched t item c' _ u hstarted hp hitem hfinished hp' =>
    exact (hsound u hp'.after).finishBypass (hC _) true result

end Contents

end

end HistoryCache
