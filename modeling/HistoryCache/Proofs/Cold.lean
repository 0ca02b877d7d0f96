import HistoryCache.Proofs.Bystanders
import HistoryCache.Proofs.Refusals
import HistoryCache.Proofs.Repeats

/-!
# Requests on a cold cache

For an item of which nothing is cached the cache reads down from the horizon, whatever the time of the
request.  Later records are out of its sight, so the first request for an item is answered as if the store
had none of them; a request past the cache sees them.  The store may hold records of any later second
here, and is `Lawful` but not `Regular`.

* `Request.wanted_inSight_iff`: when the later records make no difference.
* `Item.Blank.wanted_of_brought`: what is read for an item of which nothing is cached.
* `Service.cold_getThrough`: the first request through the cache ends in one of two ways
  (`Service.Cold`).
* `Service.get_of_cold`: the same request with the cache and past it.
-/

namespace HistoryCache

/-- The records that are read for an item of which nothing is cached. -/
def inSight (rs : List Record) : List Record := rs.filter fun r => decide (r.sec ≤ Timestamp.horizon)

theorem mem_inSight {rs : List Record} {r : Record} :
    r ∈ inSight rs ↔ r ∈ rs ∧ r.sec ≤ Timestamp.horizon := by
  rw [inSight, List.mem_filter, decide_eq_true_iff]

namespace Request

/-- No number that a request brings about goes beyond 64 bits: the edges of its window, the second after
its last and the count after its own. -/
structure Bounded (q : Request) : Prop where
  window : q.InBounds
  next : Fits64 (q.upTo.sec + 1)
  countable : q.count < maxCount

variable {q : Request} {rs : List Record} {r : Record}

/-- The newest record that a request admits is among those it wants, and no other is of a later
second. -/
theorem exists_newest (hin : InOrder rs) (hr : r ∈ rs) (hA : q.Admits r) :
    ∃ newest ∈ q.wanted rs, r.sec ≤ newest.sec := by
  have hfound : r ∈ (rs.filter fun r => decide (q.Admits r)).reverse :=
    List.mem_reverse.2 (List.mem_filter.2 ⟨hr, decide_eq_true hA⟩)
  have hdown : ((rs.filter fun r => decide (q.Admits r)).reverse).Pairwise fun a b => b.time ≤ a.time :=
    List.pairwise_reverse.2 (hin.filter _)
  rw [wanted]
  generalize (rs.filter fun r => decide (q.Admits r)).reverse = found at hfound hdown
  cases found with
  | nil => exact absurd hfound List.not_mem_nil
  | cons newest older =>
    refine ⟨newest, ?_, ?_⟩
    · split
      · exact List.mem_cons_self
      · next hcount =>
        obtain ⟨n, hn⟩ := Nat.exists_eq_succ_of_ne_zero hcount
        rw [hn, List.take_succ_cons]
        exact List.mem_cons_self
    · rcases List.mem_cons.1 hfound with rfl | hfound
      · exact Int.le_refl _
      · exact Record.sec_le_of_le ((List.pairwise_cons.1 hdown).1 r hfound)

/-- **Records out of sight** make no difference to a request that wants none of them. -/
theorem wanted_inSight_iff (hin : InOrder rs) :
    q.wanted (inSight rs) = q.wanted rs ↔ ∀ r ∈ q.wanted rs, r.sec ≤ Timestamp.horizon := by
  constructor
  · intro heq r hr
    rw [← heq] at hr
    exact (mem_inSight.1 (mem_of_wanted hr).1).2
  · intro hall
    refine wanted_of_filter_eq ?_
    rw [inSight, List.filter_filter]
    refine List.filter_congr fun r hr => ?_
    rw [Bool.and_eq_left_iff_imp, decide_eq_true_iff, decide_eq_true_iff]
    intro hA
    obtain ⟨newest, hnewest, hle⟩ := exists_newest hin hr hA
    exact Int.le_trans hle (hall newest hnewest)

end Request

/-! ## An item of which nothing is cached -/

/-- Nothing is cached of an item, and it vouches for nothing. -/
structure Item.Blank (item : Item) : Prop where
  history : item.history = {}
  all : item.cachedAll = false
  covered : item.coveredFrom = none

namespace Item.Blank

variable {item : Item} {q : Request} {stored : List Record}

theorem sorted (h : item.Blank) : item.history.Sorted := by
  rw [h.history]
  exact .empty

theorem records (h : item.Blank) : item.history.records = [] := by
  rw [h.history]
  rfl

theorem below_eq (h : item.Blank) (rs : List Record) : Cache.below item.history rs = rs := by
  rw [Cache.below, h.records]
  exact List.filter_eq_self.2 fun _ _ => rfl

theorem uncachedUpTo (h : item.Blank) : item.uncachedUpTo = Timestamp.horizon := by
  rw [Item.uncachedUpTo, h.history]
  rfl

theorem covers (h : item.Blank) (sec : Int) : item.covers sec = false := by
  rw [Item.covers, h.all, h.covered]
  rfl

/-- Nothing is missing only from a window that starts at the horizon or later. -/
theorem wanted_of_missing (h : item.Blank) (hmissing : q.missing? item = none) :
    q.wanted item.history.records = q.wanted (inSight stored) := by
  have hreached : q.reached item.history.records = 0 := by
    rw [h.records]
    rfl
  have hwindow : q.count = 0 ∧ Timestamp.horizon ≤ q.windowStart := by
    rcases (q.missing?_eq_none_iff h.sorted).1 hmissing with ⟨hcount, hcovers | hle⟩ | ⟨hcount, hcovers | hle⟩
    · rw [h.covers] at hcovers
      cases hcovers
    · rw [h.uncachedUpTo] at hle
      exact ⟨hcount, hle⟩
    · rw [h.covers] at hcovers
      cases hcovers
    · omega
  have hnone : (inSight stored).filter (fun r => decide (q.Admits r)) = [] := by
    refine List.filter_eq_nil_iff.2 fun r hr hA => ?_
    have hle := (mem_inSight.1 hr).2
    have hlate := (of_decide_eq_true hA).2.resolve_left fun h => h.1 hwindow.1
    have hstart := hwindow.2
    rw [Request.windowStart, Timestamp.horizon] at hstart
    rw [Timestamp.horizon] at hle
    omega
  refine Request.wanted_of_filter_eq ?_
  rw [h.records, hnone]
  rfl

/-- **What is read** for such an item is enough for a store that ends with the horizon. -/
theorem wanted_of_brought (h : item.Blank) {fill : Fill} {fetched : Fetched}
    (hmissing : q.missing? item = some fill)
    (hbrought : fill.extent.Brought q (· ∈ stored) (· ∈ stored) item.uncachedUpTo fetched)
    (hrising : Rising stored) (hpos : ∀ r ∈ stored, 1 ≤ r.sec) :
    q.wanted fetched.records = q.wanted (inSight stored) := by
  obtain ⟨m, hspan, hdone⟩ := hbrought.spans
  rw [h.uncachedUpTo] at hspan
  have hspan' : Spans (· ∈ inSight stored) (· ∈ stored) (fill.extent.after q) Timestamp.horizon m
      fetched.records := hspan.mono fun r hr => (mem_inSight.1 hr).1
  have hadmits : ∀ r ∈ inSight stored, q.Admits r → fill.extent.after q < r.sec := by
    intro r hr hA
    have hlt := Request.start_lt (hpos r (mem_inSight.1 hr).1) hA
    have hfirst := hpos r (mem_inSight.1 hr).1
    refine Int.lt_of_le_of_lt (fill.extent.after_le q) ?_
    rw [Request.start_of_missing hmissing, Request.exclusive]
    split <;> omega
  have henough : m ≤ fill.extent.after q + 1 ∨
      q.count ≠ 0 ∧ q.count ≤ q.reached fetched.records := by
    refine hdone.imp_right ?_
    rintro ⟨start, needed, hextent, hneeded⟩
    have hcached : item.history.countUpTo q.upTo q.count = 0 := by
      rw [h.history]
      rfl
    rcases Request.missing?_eq_some hmissing with ⟨-, -, -, rfl⟩ | ⟨hcount, -, -, rfl⟩
    · cases hextent
    · cases hextent
      rw [hcached] at hneeded
      exact ⟨hcount, hneeded⟩
  refine (Request.serves_of_spans hspan' (fun r hr _ => (mem_inSight.1 hr).2) hadmits henough).wanted_eq
    (Request.rising_of_spans hspan hbrought.inOrder fun a b ha hb => hrising.eq_of_time ha hb)
    (hrising.filter _) fun r hr => ?_
  obtain ⟨hmem, -, hle⟩ := hspan.high r hr
  exact mem_inSight.2 ⟨hmem, hle⟩

end Item.Blank

/-! ## The first request -/

namespace Cache

variable {c : Cache} {q : Request} {item : Item}

theorem finishBypass_of_none (now : Int) (held : Bool) (result : Except StoreFailure (List Record))
    (hnone : c.items[q.item]? = none) : (c.finishBypass now q held result).items[q.item]? = none := by
  rcases finishBypass_spec now q held result (fun item hid => by rw [hnone] at hid; cases hid) with
    ⟨hitems, -⟩ | ⟨-, item, x, hid, -⟩
  · rw [hitems]
    exact hnone
  · rw [hnone] at hid
    cases hid

/-- The last to hold an item that is to be removed leaves the cache without it. -/
theorem finishBypass_of_pending (now : Int) (result : Except StoreFailure (List Record))
    (hid : c.items[q.item]? = some item) (hs : item.history.Sorted) (hstate : item.state = .removePending)
    (hpins : item.pins = 1) : (c.finishBypass now q true result).items[q.item]? = none := by
  rcases finishBypass_spec now q true result (fun item' hid' => by cases hid.symm.trans hid'; exact hs)
    with ⟨-, hfree | hnone⟩ | ⟨-, item', x, hid', hleaves, hup⟩
  · cases hfree
  · rw [hid] at hnone
    cases hnone
  · cases hid.symm.trans hid'
    cases hleaves with
    | kept hstay =>
      rw [hstate, hpins] at hstay
      rcases hstay with hstay | hstay
      · exact absurd hstay (by decide)
      · cases hstay
    | removed => exact hup.1
    | trimmed _ _ hclean =>
      rw [hstate] at hclean
      cases hclean

/-- What was read for an item of which nothing is cached is the answer if there is room for it, and
otherwise the item is to be removed. -/
theorem finishFill_of_blank {c' : Cache} {now : Int} {fill : Fill} {fetched : Fetched}
    {stored : List Record} {answer : Option (List Record)} (hid : c.items[q.item]? = some item)
    (hblank : item.Blank) (hactive : item.state = .active) (hmissing : q.missing? item = some fill)
    (hbrought : fill.extent.Brought q (· ∈ stored) (· ∈ stored) item.uncachedUpTo fetched)
    (hrising : Rising stored) (hpos : ∀ r ∈ stored, 1 ≤ r.sec)
    (h : c.finishFill now q fill (.ok fetched) = (answer, c')) :
    answer = some (q.wanted (inSight stored)) ∧ (∃ item', c'.items[q.item]? = some item') ∧
        (c.Lone q.item → c'.budget.refused = c.budget.refused) ∨
      answer = none ∧ c.budget.refused < c'.budget.refused ∧ ∃ item',
        c'.items[q.item]? = some item' ∧ item'.history.Sorted ∧ item'.state = .removePending ∧
          item'.pins = item.pins := by
  have ho : ∀ fetched', (.ok fetched : Except StoreFailure Fetched) = .ok fetched' →
      InOrder fetched'.records := fun _ h => by cases h; exact hbrought.inOrder
  have hfinished := finishFill_spec hid hblank.sorted ho h
  obtain ⟨hlt, hroom⟩ := finishFill_refused hid (Request.tailWrites_of_missing hmissing).symm
    (by rw [hactive]; exact nofun) h
  cases hfinished with
  | lost _ g _ htidy hrecords hup =>
    have hsorted : g.Sorted := by
      rcases hrecords with hsame | ⟨_, taken, ⟨⟩, htaken, hrecords⟩
      · exact ⟨htidy, hsame ▸ hblank.sorted.inOrder⟩
      · exact sorted_of_below hblank.sorted hbrought.inOrder htidy htaken hrecords
    exact .inr ⟨rfl, hlt rfl, _, hup.1, hsorted, rfl, rfl⟩
  | answers _ g x _ _ _ htidy hrecords hanswers hup =>
    have hall : g.records = fetched.records := by
      rw [hrecords, hblank.below_eq, hblank.records, List.append_nil]
    obtain ⟨all, covered, hmark⟩ := mark_eq fill.extent fetched { item with history := g }
    rw [hmark] at hanswers
    obtain ⟨item', rfl, -⟩ := hanswers.of_active ⟨htidy, hall ▸ hbrought.inOrder⟩ hactive
    rw [hall, hblank.wanted_of_brought hmissing hbrought hrising hpos]
    exact .inl ⟨rfl, ⟨item', hup.1⟩, fun hlone => hroom hlone fun hnone => by cases hnone⟩

end Cache

namespace Service

variable {q : Request} {s t : Service}

/-- A lawful store that does not fail answers a reading truthfully, and nothing else happens. -/
theorem perform_lawful {α : Type} (r : Reading α) (hlawful : s.store.Lawful)
    (hreads : s.store.readsFail = false) : ∃ a t, perform plain r (s, ()) = (.ok a, t, ()) ∧
      s.Rests t ∧ t.store.readsFail = false ∧ Cache.Same s.cache t.cache ∧
      ∀ (q : Request) (P : α → Prop), (∀ A, q.Truthful (· ∈ s.store.recordsOf q.item q.kind)
        (· ∈ s.store.recordsOf q.item q.kind) A → r.Yields A P) → P a := by
  obtain ⟨a, ⟨t, ⟨⟩⟩, hperform⟩ : ∃ a t, perform plain r (s, ()) = (.ok a, t) := perform_ok r hreads
  obtain ⟨hperformed, -⟩ := (keeps_rests Store.Lawful.congr).perform (rely_rests Store.Lawful.congr)
    r hlawful trivial hperform
  have hquiet : (plain : Backend Unit).Quiet := fun _ _ _ => rfl
  have hsame := same_perform hquiet r s ()
  rw [hperform] at hsame
  refine ⟨a, t, hperform, hperformed.leads, ?_, hsame, fun q P hP => ?_⟩
  · rw [(reads_perform hperform).1]
    exact hreads
  · have htruthful := truthful_asked (fun _ h => h)
      (fun s t (h : s.Rests t) => Store.Grows.of_series h.series) q s t
    rw [Store.recordsOf_congr hperformed.leads.series] at htruthful
    exact hperformed.yields a rfl P (hP _ htruthful)

/-- Past the cache all that is wanted is found. -/
theorem getPast_lawful (hq : q.Bounded) (hlawful : s.store.Lawful) (hreads : s.store.readsFail = false) :
    ∃ t, getPast plain q (s, ()) = (.ok (q.wanted (s.store.recordsOf q.item q.kind)), t, ()) ∧
      Cache.Same s.cache t.cache := by
  obtain ⟨records, t, hperform, -, -, hsame, hyields⟩ := perform_lawful q.direct hlawful hreads
  have hrising := s.store.rising_recordsOf q.item q.kind
  obtain ⟨all, rfl, hall, hsub, hserves⟩ := hyields q _ fun A hA =>
    hA.yields_direct (hlawful.pos _ _) (fun _ => hq.window) (fun _ _ => hq.countable)
      (fun a b ha hb => hrising.eq_of_time ha hb) fun _ hr => hr
  rw [hserves.wanted_eq hall hrising hsub] at hperform
  exact ⟨t, hperform, hsame⟩

/-- A request that goes past the cache gets all that is wanted, and its item is gone if that is how the
request leaves it. -/
theorem bypass_lawful (hq : q.Bounded) (held : Bool) (hlawful : s.store.Lawful)
    (hreads : s.store.readsFail = false) (hgone : ∀ (c : Cache) (now : Int)
      (result : Except StoreFailure (List Record)), c.items = s.cache.items →
        (c.finishBypass now q held result).items[q.item]? = none) :
    ∃ t, bypass plain q held (s, ()) =
        (.ok (q.wanted (s.store.recordsOf q.item q.kind)), t, ()) ∧
      t.cache.items[q.item]? = none ∧ t.cache.budget.refused = s.cache.budget.refused := by
  obtain ⟨t, hpast, hsame⟩ := getPast_lawful hq hlawful hreads
  generalize q.wanted (s.store.recordsOf q.item q.kind) = records at hpast ⊢
  refine ⟨{ t with cache := t.cache.finishBypass t.now q held (.ok records) }, ?_, ?_, ?_⟩
  · rw [bypass, hpast]
  · exact hgone t.cache t.now _ hsame.items
  · rw [← hsame.budget]
    exact Cache.refused_finishBypass t.cache t.now q held (.ok records)

/-- How a first request to a cache ends: with its item in the cache and later records out of sight, or
past the cache for want of room.  With no other item to evict it has its item only if there was room. -/
inductive Cold (q : Request) (stored : List Record) (c : Cache) : List Record → Service → Prop
  | kept (item : Item) (t : Service) (hid : t.cache.items[q.item]? = some item)
      (hroom : c.Lone q.item → t.cache.budget.refused = c.budget.refused) :
      Cold q stored c (q.wanted (inSight stored)) t
  | lost (t : Service) (hnone : t.cache.items[q.item]? = none)
      (hrefused : c.budget.refused < t.cache.budget.refused) : Cold q stored c (q.wanted stored) t

/-- What is read for an item of which nothing is cached is the answer and stays, if there is room. -/
theorem getThrough_of_fill {c : Cache} {item : Item} {fill : Fill}
    (hstart : s.cache.start s.now q = (.fill fill, c)) (hid : c.items[q.item]? = some item)
    (hblank : item.Blank) (hactive : item.state = .active) (hpins : item.pins = 1)
    (hmissing : q.missing? item = some fill) (hlawful : s.store.Lawful)
    (hreads : s.store.readsFail = false) (hq : q.Bounded) :
    ∃ records t, getThrough plain q (s, ()) = (.ok records, t, ()) ∧
      Cold q (s.store.recordsOf q.item q.kind) c records t := by
  obtain ⟨fetched, u, hread, hrests, hreads', hsame, hyields⟩ :=
    perform_lawful (s := { s with cache := c }) fill.reading hlawful hreads
  have hpos := hlawful.pos q.item q.kind
  have hbrought := hyields q _ fun A hA => hA.yields_fill hpos
    (fun _ _ => Request.countable_of_missing hq.countable hmissing) hmissing
  have hcontents : u.store.recordsOf q.item q.kind = s.store.recordsOf q.item q.kind :=
    Store.recordsOf_congr hrests.series _ _
  have hid' : u.cache.items[q.item]? = some item := by
    rw [hsame.items]
    exact hid
  generalize hfinish : u.cache.finishFill u.now q fill (.ok fetched) = finished
  obtain ⟨answer, c'⟩ := finished
  rw [getThrough]
  simp only [hstart, hread, hfinish]
  rcases Cache.finishFill_of_blank hid' hblank hactive hmissing hbrought
    (s.store.rising_recordsOf _ _) hpos hfinish with
    ⟨rfl, ⟨item', hkept⟩, hroom⟩ | ⟨rfl, hlt, item', hlost, hsorted, hstate, hheld⟩
  · refine ⟨_, { u with cache := c' }, rfl, .kept item' _ hkept fun hlone => ?_⟩
    rw [← hsame.budget]
    exact hroom (hlone.congr hsame.items)
  · obtain ⟨t, hbypass, hgone, hrefused⟩ := bypass_lawful (s := { u with cache := c' }) hq true
      (hlawful.congr hrests.series hrests.arrange) hreads' fun d now result hitems => by
        rw [← hitems] at hlost
        exact Cache.finishBypass_of_pending now result hlost hsorted hstate (hheld.trans hpins)
    refine ⟨_, t, hbypass, ?_⟩
    rw [show ({ u with cache := c' } : Service).store.recordsOf q.item q.kind = _ from hcontents]
    refine .lost t hgone ?_
    rw [hrefused, ← hsame.budget]
    exact hlt

/-- **The first request** for an item, through a cache in normal mode. -/
theorem cold_getThrough (hsorted : s.cache.All fun _ item => item.history.Sorted)
    (hnone : s.cache.items[q.item]? = none) (hmode : s.cache.mode = .normal)
    (hlawful : s.store.Lawful) (hreads : s.store.readsFail = false) (hq : q.Bounded) :
    ∃ records t, getThrough plain q (s, ()) = (.ok records, t, ()) ∧
      Cold q (s.store.recordsOf q.item q.kind) s.cache records t := by
  generalize hstart : s.cache.start s.now q = started
  obtain ⟨next, c⟩ := started
  obtain ⟨hle, hlt, hroom⟩ := Cache.start_refused hmode hstart
  have hstarted := Cache.start_spec hsorted hstart
  have hnew : ∀ item, s.cache.Finds s.now q item → item = Item.empty q.kind s.now := fun item hfinds =>
    (hfinds.resolve_left (by rw [hnone]; exact nofun)).2
  cases hstarted with
  | past _ _ hup =>
    obtain ⟨t, hbypass, hgone, hrefused⟩ := bypass_lawful (s := { s with cache := c }) hq false
      hlawful hreads fun d now result hitems =>
        Cache.finishBypass_of_none now false result (by rw [hitems]; exact hup.1)
    refine ⟨_, t, ?_, .lost t hgone (hrefused ▸ hlt rfl)⟩
    rw [getThrough]
    simp only [hstart]
    exact hbypass
  | refused item _ hfinds hunfit =>
    obtain rfl := hnew item hfinds
    rcases hunfit with hpending | hkind
    · cases hpending
    · exact absurd rfl hkind
  | answers item x _ hfinds _ _ hmissing hanswers hup =>
    obtain rfl := hnew item hfinds
    have hblank : Item.Blank { Item.empty q.kind s.now with pins := 0 + 1 } := ⟨rfl, rfl, rfl⟩
    obtain ⟨item', rfl, -⟩ := hanswers.of_active hblank.sorted rfl
    rw [getThrough]
    simp only [hstart]
    refine ⟨_, { s with cache := c }, rfl, ?_⟩
    rw [show (Item.empty q.kind s.now).history.records = [] from rfl]
    exact hblank.wanted_of_missing hmissing ▸ .kept item' _ hup.1 fun hlone =>
      hroom hlone fun hnext => by cases hnext
  | fills item fill _ hfinds _ _ hmissing hup =>
    obtain rfl := hnew item hfinds
    obtain ⟨records, t, hget, hcold⟩ := getThrough_of_fill hstart hup.1 ⟨rfl, rfl, rfl⟩ rfl rfl hmissing
      hlawful hreads hq
    refine ⟨records, t, hget, ?_⟩
    cases hcold with
    | kept item' _ hid hsame =>
      exact .kept item' t hid fun hlone =>
        (hsame (hlone.updates hup)).trans (hroom hlone fun hnext => by cases hnext)
    | lost _ hgone hrefused => exact .lost t hgone (hle.trans_lt hrefused)

/-- **The first request with the cache and past it.**  Through a new cache it gets what it would get
past the cache from a store that ends with the horizon, if no charge was refused, and otherwise, without
its item, what it gets past the cache.  With room the two lists are one exactly if nothing that is found past the
cache lies after the horizon, and a request up to the horizon gets one list in any case. -/
theorem get_of_cold {config : Config} {now : Int} {s₀ : Service} {store : Store} {q : Request}
    (hnew : Service.new config now = .ok s₀) (hstore : store.Lawful) (hreads : store.readsFail = false)
    (hq : q.Bounded) :
    ∃ (past records : List Record) (t : Service),
      (get plain false q ({ s₀ with store := store }, ())).1 = .ok past ∧
      get plain true q ({ s₀ with store := store }, ()) = (.ok records, t, ()) ∧
      past = q.wanted (store.recordsOf q.item q.kind) ∧
      (records = q.wanted (inSight (store.recordsOf q.item q.kind)) ∧
          (∃ item, t.cache.items[q.item]? = some item) ∧ t.cache.budget.refused = 0 ∨
        records = past ∧ t.cache.items[q.item]? = none ∧ 0 < t.cache.budget.refused) ∧
      (t.cache.budget.refused = 0 → (records = past ↔ ∀ r ∈ past, r.sec ≤ Timestamp.horizon)) ∧
      (q.upTo.sec ≤ Timestamp.horizon → records = past) := by
  obtain ⟨u, hpast, -⟩ := getPast_lawful (s := { s₀ with store := store }) hq hstore hreads
  have hnone := (empty_of_new hnew).1
  have hmode : s₀.cache.mode = .normal := by rw [eq_of_new hnew]; rfl
  obtain ⟨records, t, hget, hcold⟩ := cold_getThrough (s := { s₀ with store := store }) (q := q)
    (fun id item hid => by rw [hnone id] at hid; cases hid) (hnone q.item) hmode hstore hreads hq
  have hsight := q.wanted_inSight_iff (store.rising_recordsOf q.item q.kind).inOrder
  have hearly : q.upTo.sec ≤ Timestamp.horizon → ∀ r ∈ q.wanted (store.recordsOf q.item q.kind),
      r.sec ≤ Timestamp.horizon := fun hle r hr =>
    (Timestamp.sec_le_of_le (Request.mem_of_wanted hr).2.1).trans hle
  refine ⟨q.wanted (store.recordsOf q.item q.kind), records, t, ?_, ?_, rfl, ?_⟩
  · rw [get, if_neg (by decide), hpast]
  · rw [get, if_pos rfl, hget]
  · cases hcold with
    | kept item _ hid hroom =>
      have hzero : t.cache.budget.refused = 0 :=
        (hroom fun j _ => hnone j).trans (by rw [eq_of_new hnew]; rfl)
      exact ⟨.inl ⟨rfl, ⟨item, hid⟩, hzero⟩, fun _ => hsight, fun hle => hsight.2 (hearly hle)⟩
    | lost _ hgone hrefused =>
      have hpositive := (Nat.zero_le _).trans_lt hrefused
      exact ⟨.inr ⟨rfl, hgone, hpositive⟩, fun hroom => absurd hroom hpositive.ne', fun _ => rfl⟩

/-- A store with a number before the horizon and one after it. -/
def aroundHorizon : Store :=
  (({} : Store).put ⟨7, ⟨⟨2145916790, 0⟩, .uint 1⟩⟩).put ⟨7, ⟨⟨2145916801, 0⟩, .uint 2⟩⟩

theorem lawful_aroundHorizon : aroundHorizon.Lawful :=
  ((Store.regular_empty fun _ _ => .refl _).lawful.put (by decide) (by decide)).put (by decide) (by decide)

/-- **A new cache may miss a record**: with a minute that the horizon lies in, the number after it is
found past the cache only. -/
theorem not_get_of_cold_lastMinute : ∃ t : Service, new {} 1000 = .ok newService ∧
    aroundHorizon.Lawful ∧ aroundHorizon.readsFail = false ∧ t.cache.budget.refused = 0 ∧
    get plain true ⟨7, .uint, 60, 0, ⟨2145916830, 0⟩⟩ ({ newService with store := aroundHorizon }, ()) =
      (.ok [⟨⟨2145916790, 0⟩, .uint 1⟩], t, ()) ∧
    (get plain false ⟨7, .uint, 60, 0, ⟨2145916830, 0⟩⟩
      ({ newService with store := aroundHorizon }, ())).1 =
        .ok [⟨⟨2145916801, 0⟩, .uint 2⟩, ⟨⟨2145916790, 0⟩, .uint 1⟩] := by
  have hcold : (fun got : Except StoreFailure (List Record) × Service × Unit =>
      (got.1, got.2.1.cache.budget.refused)) (get plain true ⟨7, .uint, 60, 0, ⟨2145916830, 0⟩⟩
        ({ newService with store := aroundHorizon }, ())) =
      (.ok [⟨⟨2145916790, 0⟩, .uint 1⟩], 0) := by cbv
  generalize get plain true ⟨7, .uint, 60, 0, ⟨2145916830, 0⟩⟩
    ({ newService with store := aroundHorizon }, ()) = got at hcold
  obtain ⟨result, t, ⟨⟩⟩ := got
  simp only [Prod.mk.injEq] at hcold
  obtain ⟨rfl, hrefused⟩ := hcold
  exact ⟨t, new_newService, lawful_aroundHorizon, rfl, hrefused, rfl, by cbv⟩

/-- The newest number, asked for after the horizon, is another one past the cache. -/
theorem get_of_cold_newest : ∃ (past records : List Record) (t : Service),
    (get plain false ⟨7, .uint, 0, 1, ⟨2145916830, 0⟩⟩
      ({ newService with store := aroundHorizon }, ())).1 = .ok past ∧
    get plain true ⟨7, .uint, 0, 1, ⟨2145916830, 0⟩⟩ ({ newService with store := aroundHorizon }, ()) =
      (.ok records, t, ()) ∧
    past = [⟨⟨2145916801, 0⟩, .uint 2⟩] ∧ t.cache.budget.refused = 0 ∧ records ≠ past := by
  obtain ⟨past, records, t, hpast, hget, -, -, hroom, -⟩ :=
    get_of_cold (q := ⟨7, .uint, 0, 1, ⟨2145916830, 0⟩⟩) new_newService lawful_aroundHorizon rfl
      ⟨by decide, by decide, by decide⟩
  have hfound : (get plain false ⟨7, .uint, 0, 1, ⟨2145916830, 0⟩⟩
      ({ newService with store := aroundHorizon }, ())).1 =
        .ok [⟨⟨2145916801, 0⟩, .uint 2⟩] := by cbv
  obtain rfl := Except.ok.inj (hpast.symm.trans hfound)
  have hrefused : (get plain true ⟨7, .uint, 0, 1, ⟨2145916830, 0⟩⟩
      ({ newService with store := aroundHorizon }, ())).2.1.cache.budget.refused = 0 := by cbv
  rw [hget] at hrefused
  refine ⟨_, records, t, hpast, hget, rfl, hrefused, fun hsame => ?_⟩
  exact absurd ((hroom hrefused).1 hsame ⟨⟨2145916801, 0⟩, .uint 2⟩ List.mem_cons_self) (by decide)

end Service

end HistoryCache
