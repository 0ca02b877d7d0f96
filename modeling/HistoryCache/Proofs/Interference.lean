import HistoryCache.Proofs.Advances
import HistoryCache.Proofs.Vouching
import Mathlib

/-!
# Requests that others interfere with

While a request reads the store, others may write to the item it reads for.  As long as no written
record is stray for its item, the cached items vouch truly for what they hold, in every service that
operations lead to (`follows_coherent`), and an answer is what is wanted of enough records
(`Coherent.serves`).
-/

namespace HistoryCache

namespace Cache

variable {now : Int} {q : Request} {c c' : Cache}

/-- An item that somebody holds and that is to be removed. -/
def Pending (c : Cache) (id : ItemId) : Prop :=
  ∃ item, c.items[id]? = some item ∧ 0 < item.pins ∧ item.state = .removePending

theorem Started.pending (h : Started now q c (.bypass true) c') : c'.Pending q.item := by
  cases h with
  | refused item _ _ _ hup => exact ⟨_, hup.1, Nat.succ_pos _, rfl⟩

theorem Finished.pending {fill : Fill} {item : Item} {result : Except StoreFailure Fetched}
    (h : Finished now q fill item c result none c') (hpins : 0 < item.pins) :
    c'.Pending q.item := by
  cases h with
  | lost _ _ _ _ _ hup => exact ⟨_, hup.1, hpins, rfl⟩

end Cache

namespace Service

variable {N : Store → Store → ItemId → Record → Prop} {s t : Service} {q : Request}

/-- An item that is to be removed stays so while it is held. -/
theorem Advances.pending (h : s.Advances N t) {id : ItemId} (hpending : s.cache.Pending id) :
    ∀ item, t.cache.items[id]? = some item → item.state = .removePending := by
  intro item hid
  obtain ⟨item₀, hid₀, hpins, hstate⟩ := hpending
  obtain ⟨item', hid', hlater⟩ := h.holds.later id item₀ hid₀ hpins
  rw [hid] at hid'
  cases hid'
  exact hlater.pending hstate

/-- The cached items vouch truly for what they hold. -/
structure Coherent (s : Service) : Prop extends s.Faithful where
  vouched : s.cache.Vouched s.store

end Service

/-- Records that were read for a request while others went on. -/
theorem Service.Coherent.extension {s t : Service} {q : Request} {c : Cache} {fill : Fill}
    {fetched : Fetched} {item : Item} (hcountable : q.count < maxCount)
    (hstarted : Cache.Started s.now q s.cache (.fill fill) c)
    (hread : fill.reading.Performed Plain Service.Coherent (Service.Advances written)
      { s with cache := c } (.ok fetched) t)
    (hitem : t.cache.items[q.item]? = some item) (hstate : item.state ≠ .removePending)
    (hwrites : item.tailWrites = fill.tailWrites) :
    ∃ old, Extension q (s.store.recordsOf q.item item.kind) (t.store.recordsOf q.item item.kind) old
      item fill fetched := by
  have hregular := hread.after.regular
  have hsound := hread.after.sound q.item item hitem
  have hkind := kind_of_fill (fun s t (h : s.Advances written t) => h.holds_none) hstarted hread hitem
  cases hstarted with
  | fills item₀ _ _ _ _ hkind₀ hmissing hup =>
    have hold := hread.before.sound q.item _ hup.1
    obtain ⟨item', hid', hlater⟩ := hread.leads.holds.later q.item _ hup.1 (Nat.succ_pos _)
    rw [hitem] at hid'
    cases hid'
    have hbrought := (brought_of_fill (fun s (h : s.Coherent) => h.regular.lawful)
      (fun s t (h : s.Advances written t) => h.grows) hmissing hread).mono
        fun r hr => ⟨Request.countable_of_missing hcountable hmissing, hr⟩
    have htail : fill.tailWrites = item₀.tailWrites := Request.tailWrites_of_missing hmissing
    obtain ⟨hkept, hnew⟩ := hlater.records (hwrites.trans htail) hstate
    have hcoherent := ((hread.after.vouched q.item item hitem).resolve_left fun h => hstate h.1).1
    refine ⟨{ item₀ with pins := item₀.pins + 1 }, hmissing, ?_,
      fun r hr => hregular.times _ _ r hr, hold.sorted, hold.contents.1, hkept,
      fun r hr hnot => ?_, hcoherent, hsound.sorted⟩
    · rw [hkind]
      exact hbrought
    · obtain ⟨hhas, hr⟩ := hregular.mem_recordsOf.1 hr
      refine hnew r ⟨hhas, fun hbefore => hnot ?_⟩ ?_
      · exact hread.before.regular.mem_recordsOf.2 ⟨hbefore, hr⟩
      · rw [hr, hkind, ← hkind₀]

/-- Records that are enough for a store are enough for one that has less. -/
theorem Request.Serves.mono {q : Request} {low low' : Record → Prop} {rs : List Record}
    (h : q.Serves low rs) (hlow : ∀ r, low' r → low r) : q.Serves low' rs := by
  rcases h with h | ⟨hcount, hreached, m, hfloor, hupper⟩
  · exact Or.inl fun r hr => h r (hlow r hr)
  · exact Or.inr ⟨hcount, hreached, m, hfloor, fun r hr => hupper r (hlow r hr)⟩

namespace Service.Coherent

variable {s t : Service} {q : Request}

theorem started (h : s.Coherent) (hq : q.Valid) {next : Start} {c : Cache}
    (hstarted : Cache.Started s.now q s.cache next c) :
    ({ s with cache := c } : Service).Coherent where
  toFaithful := h.toFaithful.started hstarted
  vouched := h.vouched.started (h.sound.mono fun _ => trivial) h.regular hq hstarted

/-- The item that was held while it was read for is still held. -/
theorem pins_of_fill {c : Cache} {fill : Fill} {fetched : Except StoreFailure Fetched} {item : Item}
    (hstarted : Cache.Started s.now q s.cache (.fill fill) c)
    (hread : fill.reading.Performed Plain Service.Coherent (Service.Advances written)
      { s with cache := c } fetched t)
    (hitem : t.cache.items[q.item]? = some item) : 0 < item.pins := by
  obtain ⟨item₀, hid₀, hpins, -⟩ := hstarted.pinned
  have h := hread.leads.pinsOf q.item
  rw [Cache.Holds.pinsOf_some hitem, Cache.Holds.pinsOf_some hid₀] at h
  omega

/-- A request goes on after a reading below the history of its item. -/
theorem finished (hq : q.Valid) {fill : Fill} {c c' : Cache}
    {fetched : Except StoreFailure Fetched} {item : Item} {answer : Option (List Record)}
    (hstarted : Cache.Started s.now q s.cache (.fill fill) c)
    (hread : fill.reading.Performed Plain Service.Coherent (Service.Advances written)
      { s with cache := c } fetched t)
    (hitem : t.cache.items[q.item]? = some item)
    (hfinished : Cache.Finished t.now q fill item t.cache fetched answer c') :
    ({ t with cache := c' } : Service).Coherent where
  toFaithful := Service.Faithful.finished (fun hs => hs.toFaithful) hstarted hread hitem hfinished
  vouched := by
    refine hread.after.vouched.finished (hread.after.sound q.item item hitem).sorted
      (pins_of_fill hstarted hread hitem) (fun found hfound hstate hwrites => ?_) hfinished
    subst hfound
    exact ⟨_, extension hq.countable hstarted hread hitem hstate hwrites⟩

/-- A request leaves a coherent service coherent. -/
theorem got (hq : q.Valid) {result : Except StoreFailure (List Record)} (hs : s.Coherent)
    (h : Got Plain Service.Coherent (Service.Advances written) q s result t) :
    t.Coherent ∧ s.Advances written t := by
  obtain ⟨hfaithful, hadvances⟩ :=
    Service.Faithful.got news_written (fun hs : Service.Coherent _ => hs.toFaithful) hs h
  refine ⟨⟨hfaithful, ?_⟩, hadvances⟩
  cases h with
  | answered records c hstarted => exact (hs.started hq hstarted).vouched
  | past held c _ t hstarted hread =>
    refine hread.after.vouched.finishBypass (hread.after.sound.mono fun _ => trivial)
      (fun hheld => ?_) result
    subst hheld
    exact hread.leads.pending hstarted.pending
  | filled fill c fetched t item records c' hstarted hread hitem _ hfinished =>
    exact (finished hq hstarted hread hitem hfinished).vouched
  | lost fill c fetched t item c' _ u hstarted hread hitem hfinished hread' =>
    have hpins := pins_of_fill hstarted hread hitem
    exact hread'.after.vouched.finishBypass (hread'.after.sound.mono fun _ => trivial)
      (fun _ => hread'.leads.pending (hfinished.pending hpins)) result

/-- What is read past the cache is enough. -/
theorem serves_direct (hq : q.Valid) {records : List Record}
    (hread : q.direct.Performed Plain Service.Coherent (Service.Advances written) s (.ok records) t) :
    ∃ all, records = q.wanted all ∧ Rising all ∧
      (∀ r ∈ all, r ∈ t.store.recordsOf q.item q.kind) ∧
      q.Serves (· ∈ s.store.recordsOf q.item q.kind) all := by
  have htruthful := truthful_asked (fun s (h : s.Coherent) => h.regular.lawful)
    (fun s t (h : s.Advances written t) => h.grows) q s t
  exact hread.yields records rfl _
    (htruthful.yields_direct (fun r hr => (hread.after.regular.times _ _ r hr).pos)
      (fun _ => hq.inBounds) (fun _ _ => hq.countable)
      (fun a b ha hb => (t.store.rising_recordsOf _ _).eq_of_time ha hb)
      fun r hr => hread.leads.grows _ _ r hr)

/-- **An answer** is what is wanted of enough records. -/
theorem serves (hq : q.Valid) {records : List Record} (hs : s.Coherent)
    (h : Got Plain Service.Coherent (Service.Advances written) q s (.ok records) t) :
    ∃ all, records = q.wanted all ∧ Rising all ∧
      (∀ r ∈ all, r ∈ t.store.recordsOf q.item q.kind) ∧
      q.Serves (· ∈ s.store.recordsOf q.item q.kind) all := by
  cases h with
  | answered _ c hstarted =>
    cases hstarted with
    | answers item x _ hfinds hstate hkind hmissing _ _ =>
      rcases hfinds with hid | ⟨-, rfl⟩
      · have hcoherent := ((hs.vouched _ item hid).resolve_left fun h => hstate h.1).1
        obtain ⟨hsorted, hrising, hmem⟩ := hs.sound _ item hid
        have hpinned : ({ item with pins := item.pins + 1 } : Item).Coherent
            (s.store.recordsOf q.item item.kind) := hcoherent.congr rfl rfl rfl
        have henough := hpinned.enough hsorted (fun r hr => hs.regular.times _ _ r hr) hmissing
        rw [hkind] at henough hmem
        exact ⟨_, rfl, hrising, hmem, henough.serves⟩
      · exact absurd hmissing (Item.missing?_empty hq _ _)
  | past held c _ u hstarted hread =>
    have h := serves_direct hq hread
    exact h
  | filled fill c fetched u item _ c' hstarted hread hitem _ hfinished =>
    cases hfinished with
    | answers _ g x _ hstate hwrites _ hrecords _ _ =>
      obtain ⟨old, hext⟩ := extension hq.countable hstarted hread hitem hstate hwrites
      obtain ⟨hrising, hmem⟩ := extends_faithful (fun s (h : s.Coherent) => h.regular)
        (fun s h => h.sound) (fun s t h => h.grows)
        (fun s t (h : s.Advances written t) => h.holds_none) q s fill c fetched u item hstarted
        hread hitem
      have hkind := kind_of_fill (fun s t (h : s.Advances written t) => h.holds_none) hstarted
        hread hitem
      have henough := hext.enough
      rw [hkind] at henough hmem
      refine ⟨g.records, rfl, by rw [hrecords]; exact hrising, by rw [hrecords]; exact hmem, ?_⟩
      rw [hrecords]
      exact henough.serves.mono fun r hr => hread.leads.grows _ _ r hr
  | lost fill c fetched u item c' _ v hstarted hread hitem hfinished hread' =>
    obtain ⟨all, heq, hrising, hmem, hserves⟩ := serves_direct hq hread'
    exact ⟨all, heq, hrising, hmem, hserves.mono fun r hr => hread.leads.grows _ _ r hr⟩

end Service.Coherent

/-- Requests make sense, nothing is put into the store past the cache, and fresh records are written
on handles that are on. -/
def Rules.orderly : Rules where
  call s enabled c := (∀ q, c.request? = some q → q.Valid) ∧
    ∀ writes, c = .add writes → enabled = true ∧ s.store.AllFresh writes
  outside _ o := ∀ item records, o ≠ .insert item records

/-- With these rules, no record that is written is stray when its turn comes. -/
def Rules.through : Rules where
  call s enabled c := Rules.orderly.call s enabled c ∧
    ∀ writes, c = .add writes → s.store.writesFail = false →
      Cache.NoneStray s.now (s.cache.expireBefore s.now) s.store s.cache writes
  outside := Rules.orderly.outside

theorem Service.Coherent.congr {s t : Service} (h : s.Coherent)
    (hitems : t.cache.items = s.cache.items) (hseries : t.store.series = s.store.series)
    (harrange : t.store.arrange = s.store.arrange) : t.Coherent where
  toFaithful := h.toFaithful.congr hitems hseries harrange
  vouched := by
    have h' : s.cache.Vouched t.store := by
      intro id item hid
      rw [Store.recordsOf_congr hseries]
      exact h.vouched id item hid
    exact h'.congr hitems

theorem rely_coherent : Rely Plain Service.Coherent (Service.Advances written) :=
  Service.rely_advances news_written fun hitems hseries harrange h => h.congr hitems hseries harrange

section

variable {σ : Type} {K : σ → Prop} {b : Backend σ} {q : Request} {s : Service} {x : σ}

/-- A request takes one of its courses, whoever interferes. -/
theorem got_coherent (hb : Keeps Plain Service.Coherent (Service.Advances written) K b)
    (hq : q.Valid) (hs : s.Coherent) (hx : K x) {result : Except StoreFailure (List Record)}
    {t : Service} {y : σ} (h : Service.getThrough b q (s, x) = (result, t, y)) :
    Got Plain Service.Coherent (Service.Advances written) q s result t ∧ K y :=
  getThrough_got rely_coherent (fun _ hs => hs.sound.mono fun _ => trivial)
    (fun _ _ h => h.holds_none) hb hs hx (fun _ _ _ hstarted => hs.started hq hstarted)
    (fun _ _ _ _ _ _ hstarted hread hitem hfinished =>
      Service.Coherent.finished hq hstarted hread hitem hfinished) h

end

/-- **Operations** leave the cached items coherent. -/
theorem follows_coherent :
    Follows Plain Rules.through Service.Coherent (Service.Advances written) where
  toRely := rely_coherent
  gets {σ K b c q s x} hb hcq hc hs hx := by
    have hq := hc.1.1 q hcq
    obtain ⟨hgot, hK⟩ := got_coherent hb hq hs hx rfl
    obtain ⟨hI, hR⟩ := Service.Coherent.got hq hs hgot
    exact ⟨hI, hR, hK⟩
  adds {s enabled writes} hc hs := by
    obtain ⟨rfl, hw⟩ := hc.1.2 writes rfl
    obtain ⟨hfaithful, hadvances⟩ := hs.toFaithful.add news_written true hw
      fun id r hr => ⟨rfl, (hw.has_puts.1 hr.1).resolve_left hr.2⟩
    refine ⟨⟨hfaithful, ?_⟩, hadvances⟩
    rw [Service.add, Store.append]
    by_cases hfail : s.store.writesFail = true
    · rw [if_pos hfail]
      exact hs.vouched
    · rw [if_neg hfail]
      exact hs.vouched.ingest (hs.sound.mono fun _ => trivial) hs.regular hw
        (hc.2 writes rfl (Bool.eq_false_iff.2 hfail))
  removes items hs := ⟨⟨hs.toFaithful.requestRemovals items, hs.vouched.requestRemovals items⟩,
    .of_cache news_written (.requestRemovals items _)⟩
  resets hs := ⟨⟨hs.toFaithful.reset, hs.vouched.reset⟩, .of_cache news_written (.reset _)⟩
  inserts ho _ := absurd rfl (ho _ _)

/-- A new service is coherent with whatever store. -/
theorem Service.coherent_of_new {config : Config} {now : Int} {s : Service} {store : Store}
    (hnew : Service.new config now = .ok s) (hstore : store.Regular) :
    ({ s with store := store } : Service).Coherent where
  regular := hstore
  sound id item hid := by cases ((Service.empty_of_new hnew).1 id).symm.trans hid
  vouched id item hid := by cases ((Service.empty_of_new hnew).1 id).symm.trans hid

/-- An item has records that the store has, each of them once, and all for which it vouches. -/
structure Item.Mirrors (stored : List Record) (item : Item) : Prop where
  nodup : item.history.records.Nodup
  sound : ∀ r ∈ item.history.records, r ∈ stored
  coherent : item.Coherent stored

/-- An item that nobody holds mirrors the store. -/
theorem Service.Coherent.mirrors {s : Service} (h : s.Coherent) {id : ItemId} {item : Item}
    (hid : s.cache.items[id]? = some item) :
    item.Mirrors (s.store.recordsOf id item.kind) ∨
      item.state = .removePending ∧ 0 < s.cache.pinsOf id := by
  obtain ⟨hrising, hmem⟩ := (h.sound id item hid).contents
  rw [Cache.Holds.pinsOf_some hid]
  exact (h.vouched id item hid).symm.imp (fun h => ⟨hrising.nodup, hmem, h.1⟩) fun h => h

/-- **A request with others in between** leaves every cached item with what it vouches for, and an
answer by time holds all that the store had of the window at first, if no write is stray.  A stray
write leaves its item without records for which it vouches, unless the item is to be removed. -/
theorem mirrors_of_interference {config : Config} {now : Int} {s₀ s t : Service} {store : Store}
    {depth : Nat} {q : Request} {σ : Type} {b : Backend σ} {x y : σ}
    {result : Except StoreFailure (List Record)}
    (hnew : Service.new config now = .ok s₀) (hstore : store.Regular)
    (hs : Reachable Plain Rules.through.Permits (fun s => s = { s₀ with store := store }) s)
    (hq : q.Valid) (hb : Admits Plain (Meanwhile Plain Rules.through.Permits depth) b)
    (hget : Service.get b true q (s, x) = (result, t, y)) :
    (∀ id item, t.cache.items[id]? = some item →
      item.Mirrors (t.store.recordsOf id item.kind) ∨
        item.state = .removePending ∧ 0 < s.cache.pinsOf id) ∧
    (∀ records, result = .ok records → q.count = 0 →
      ∀ r ∈ s.store.recordsOf q.item q.kind, q.Admits r → r ∈ records) ∧
    ∀ w item item', s.store.Fresh w → s.cache.items[w.item]? = some item →
      item.state ≠ .removePending → item.kind = w.record.value.kind →
      (s.cache.ingest s.now [w]).items[w.item]? = some item' → item'.state ≠ .removePending →
      (item'.Mirrors ((s.store.put w).recordsOf w.item item'.kind) ↔
        ¬ item.Stray (s.store.recordsOf w.item item.kind) w.record) := by
  have hcoherent : s.Coherent := follows_coherent.preserved.reachable
    (by rintro _ rfl; exact Service.coherent_of_new hnew hstore) hs
  have hkeeps := follows_coherent.preserved.keeps (follows_coherent.preserved.meanwhile depth) hb
  obtain ⟨hgot, -⟩ := got_coherent hkeeps hq hcoherent trivial hget
  obtain ⟨ht, hadvances⟩ := Service.Coherent.got hq hcoherent hgot
  refine ⟨fun id item hid => ?_, fun records hresult hcount r hr hA => ?_,
    fun w item item' hw hid hstate hkind hid' hstate' => ?_⟩
  · rw [← hadvances.pinsOf id]
    exact ht.mirrors hid
  · subst hresult
    obtain ⟨all, rfl, -, -, hserves⟩ := Service.Coherent.serves hq hcoherent hgot
    have hin := (hserves.resolve_right fun h => h.1 hcount) r hr hA
    rw [Request.wanted, if_pos hcount, List.mem_reverse, List.mem_filter]
    exact ⟨hin, decide_eq_true hA⟩
  · have hsorted : s.cache.Sound fun _ _ _ => True := hcoherent.sound.mono fun _ => trivial
    have hiff := hcoherent.vouched.coherent_ingestOne_iff hsorted hcoherent.regular hw hid hstate
      hkind hid' hstate'
    have hfaithful := faithful_ingestOne hcoherent.regular hw hcoherent.sound s.now
      (s.cache.expireBefore s.now)
    obtain ⟨hrising, hmem⟩ := (hfaithful w.item item' hid').contents
    rw [← hiff]
    exact ⟨fun h => h.coherent, fun h => ⟨hrising.nodup, hmem, h⟩⟩

/-- Somebody writes a record on the first handle before the store answers, if that is allowed and the
record is fresh. -/
def writesBetween (allowed : Service → Bool) (w : ItemRecord) : Backend Unit := fun question (s, x) =>
  let writes := s.enabled? 0 == some true &&
    ((s.store.seriesOf w.item w.record.value.kind)[w.record.time]?).isNone && allowed s
  Service.plain question (if writes then (s.step (.call 0 (.add [w]))).2 else s, x)

theorem admits_writesBetween {rules : Rules} {allowed : Service → Bool} {w : ItemRecord}
    (h : ∀ s, s.store.Fresh w → allowed s = true → rules.call s true (.add [w])) :
    Admits Plain (Meanwhile Plain rules.Permits 1) (writesBetween allowed w) := by
  intro question s x
  refine ⟨_, _, ?_, ⟨rfl, rfl⟩, .refl⟩
  split
  · next hwrites =>
    rw [Bool.and_eq_true, Bool.and_eq_true, beq_iff_eq, Option.isNone_iff_eq_none] at hwrites
    obtain ⟨⟨hon, hnone⟩, hallowed⟩ := hwrites
    refine .single (does_step fun enabled henabled => ?_)
    rw [hon] at henabled
    cases henabled
    exact h s (Store.fresh_of_getElem? hnone) hallowed
  · exact .refl

/-- A store with two numbers of item 7. -/
def twoApart : Store :=
  (({} : Store).put ⟨7, ⟨⟨900, 0⟩, .uint 1⟩⟩).put ⟨7, ⟨⟨990, 0⟩, .uint 2⟩⟩

theorem regular_twoApart : twoApart.Regular :=
  ((Store.regular_empty fun _ _ => .refl _).put ⟨by decide, by decide, by decide⟩).put
    ⟨by decide, by decide, by decide⟩

/-- A service with these numbers and its handle turned on. -/
def turnedOn : Service := ({ newService with store := twoApart } : Service).enable 0

/-- That service after a request for the last minute. -/
def lastMinute : Service := (turnedOn.step (.call 0 (.get ⟨7, .uint, 60, 0, ⟨1000, 0⟩⟩))).2

/-- A number that is written while a request reads. -/
def newer : ItemRecord := ⟨7, ⟨⟨995, 0⟩, .uint 3⟩⟩

/-- Whether item 7 is not cached or covers some seconds. -/
def covers7 (s : Service) : Bool := (s.cache.items[7]?).all fun item => item.coveredFrom.isSome

theorem orderly_add {s : Service} {w : ItemRecord} (hw : s.store.Fresh w)
    (hregular : w.record.time.Regular) : Rules.orderly.call s true (.add [w]) :=
  ⟨fun _ h => (by cases h), fun _ h => (by cases h; exact ⟨rfl, .singleton hw hregular⟩)⟩

theorem through_newer {s : Service} (hw : s.store.Fresh newer) (hcovers : covers7 s = true) :
    Rules.through.call s true (.add [newer]) := by
  refine ⟨orderly_add hw ⟨by decide, by decide, by decide⟩, fun _ h _ => ?_⟩
  cases h
  refine ⟨fun item hid _ _ hstray => ?_, trivial⟩
  change s.cache.items[7]? = some item at hid
  rw [covers7, hid, Option.all_some, hstray.1] at hcovers
  cases hcovers

theorem mirrors_newer : ∃ t item, Service.get (writesBetween covers7 newer) true
      ⟨7, .uint, 200, 0, ⟨1000, 0⟩⟩ (lastMinute, ()) =
      (.ok [⟨⟨995, 0⟩, .uint 3⟩, ⟨⟨990, 0⟩, .uint 2⟩, ⟨⟨900, 0⟩, .uint 1⟩], t, ()) ∧
    t.cache.items[7]? = some item ∧ item.history.records.map Record.sec = [900, 990, 995] ∧
    item.Mirrors (t.store.recordsOf 7 item.kind) := by
  generalize hget : Service.get (writesBetween covers7 newer) true ⟨7, .uint, 200, 0, ⟨1000, 0⟩⟩
    (lastMinute, ()) = got
  obtain ⟨result, t, y⟩ := got
  have hresult : (Service.get (writesBetween covers7 newer) true ⟨7, .uint, 200, 0, ⟨1000, 0⟩⟩
      (lastMinute, ())).1 =
      .ok [⟨⟨995, 0⟩, .uint 3⟩, ⟨⟨990, 0⟩, .uint 2⟩, ⟨⟨900, 0⟩, .uint 1⟩] := by cbv
  have hcached : ((Service.get (writesBetween covers7 newer) true ⟨7, .uint, 200, 0, ⟨1000, 0⟩⟩
      (lastMinute, ())).2.1.cache.items[7]?).map (fun item => item.history.records.map Record.sec) =
      some [900, 990, 995] := by cbv
  rw [hget] at hresult hcached
  obtain ⟨item, hid, hsecs⟩ := Option.map_eq_some_iff.1 hcached
  have h₀ : Reachable Plain Rules.through.Permits
      (fun s => s = { newService with store := twoApart }) { newService with store := twoApart } :=
    .initial _ rfl
  have h₁ := h₀.after _ turnedOn 0 (@does_step Rules.through.Permits _ (.enable 0) trivial)
  have h₂ := h₁.after _ lastMinute 0 (does_step fun _ _ =>
    ⟨⟨fun _ h => (by cases h; exact ⟨by decide, by decide, by decide, by decide⟩), fun _ h => (by cases h)⟩,
      fun _ h => (by cases h)⟩)
  have hmirrors := (mirrors_of_interference new_newService regular_twoApart h₂
    ⟨by decide, by decide, by decide, by decide⟩ (admits_writesBetween fun _ => through_newer) hget).1 7 item hid
  have hpins : lastMinute.cache.pinsOf 7 = 0 := by cbv
  refine ⟨t, item, ?_, hid, hsecs, hmirrors.resolve_right fun h => ?_⟩
  · rw [Prod.mk.injEq, Prod.mk.injEq]
    exact ⟨hresult, rfl, rfl⟩
  · rw [hpins] at h
    exact absurd h.2 (Nat.lt_irrefl 0)

/-- A number that is written between two others while both are read. -/
def between : ItemRecord := ⟨7, ⟨⟨950, 0⟩, .uint 3⟩⟩

/-- A stray write makes a request miss a record that was there before. -/
theorem not_mirrors_between :
    Admits Plain (Meanwhile Plain Rules.orderly.Permits 1) (writesBetween (fun _ => true) between) ∧
    ∃ t item, Service.get (writesBetween (fun _ => true) between) true
        ⟨7, .uint, 200, 0, ⟨1000, 0⟩⟩ (turnedOn, ()) =
        (.ok [⟨⟨950, 0⟩, .uint 3⟩, ⟨⟨900, 0⟩, .uint 1⟩], t, ()) ∧
      (⟨⟨990, 0⟩, .uint 2⟩ : Record) ∈ turnedOn.store.recordsOf 7 .uint ∧
      t.cache.items[7]? = some item ∧ ¬ item.Mirrors (t.store.recordsOf 7 item.kind) := by
  refine ⟨admits_writesBetween fun _ hw _ => orderly_add hw ⟨by decide, by decide, by decide⟩, ?_⟩
  generalize hget : Service.get (writesBetween (fun _ => true) between) true
    ⟨7, .uint, 200, 0, ⟨1000, 0⟩⟩ (turnedOn, ()) = got
  obtain ⟨result, t, y⟩ := got
  have hresult : (Service.get (writesBetween (fun _ => true) between) true
      ⟨7, .uint, 200, 0, ⟨1000, 0⟩⟩ (turnedOn, ())).1 =
      .ok [⟨⟨950, 0⟩, .uint 3⟩, ⟨⟨900, 0⟩, .uint 1⟩] := by cbv
  have hcached : ((Service.get (writesBetween (fun _ => true) between) true
      ⟨7, .uint, 200, 0, ⟨1000, 0⟩⟩ (turnedOn, ())).2.1.cache.items[7]?).map
        (fun item => (item.kind, item.history.records)) =
      some (.uint, [⟨⟨900, 0⟩, .uint 1⟩, ⟨⟨950, 0⟩, .uint 3⟩]) := by cbv
  have hstored : (Service.get (writesBetween (fun _ => true) between) true
      ⟨7, .uint, 200, 0, ⟨1000, 0⟩⟩ (turnedOn, ())).2.1.store.recordsOf 7 .uint =
      [⟨⟨900, 0⟩, .uint 1⟩, ⟨⟨950, 0⟩, .uint 3⟩, ⟨⟨990, 0⟩, .uint 2⟩] := by cbv
  have hbefore : turnedOn.store.recordsOf 7 .uint =
      [⟨⟨900, 0⟩, .uint 1⟩, ⟨⟨990, 0⟩, .uint 2⟩] := by cbv
  rw [hget] at hresult hcached hstored
  obtain ⟨item, hid, hitem⟩ := Option.map_eq_some_iff.1 hcached
  rw [Prod.mk.injEq] at hitem
  refine ⟨t, item, ?_, ?_, hid, fun hmirrors => ?_⟩
  · rw [Prod.mk.injEq, Prod.mk.injEq]
    exact ⟨hresult, rfl, rfl⟩
  · rw [hbefore]
    decide
  · have hfloor := hmirrors.coherent.floor
    rw [hitem.1, hitem.2, hstored] at hfloor
    exact absurd (hfloor ⟨⟨900, 0⟩, .uint 1⟩ (by decide) ⟨⟨990, 0⟩, .uint 2⟩ (by decide) (by decide))
      (by decide)

end HistoryCache
