import HistoryCache.Proofs.Lifecycle
import HistoryCache.Proofs.Transparency

/-!
# Requests that are made again

A request that was answered from the cache, made once more with nothing in between.  It gets the same
list, and mostly without a question to the store: what was read the first time is cached, and the item
takes note of how far back it goes.

That note falls short for a counted request with a window that found fewer records than it wanted, if
the window goes back to the first second, or if records of the second of the request that are later
than the request were read and counted for it.  All there is was read, but the item vouches for its
oldest record at most, so the request looks again (`Request.Rereads`).

* `Extended.missing_iff`: what is missing for a request right after its answer.
* `Extended.nothing`: a request that looks again finds nothing.
* `Extended.start_or_later`: when a request looks again.
* `Service.get_of_cached`: whatever answers for the store, it is not asked if nothing is missing.
* `Traffic.repeats_of_possible`: the second call as a whole.
-/

namespace HistoryCache

/-! ## The store is asked and nothing else happens -/

namespace Service

/-- The items and the contents of the store are the same. -/
structure Rests (s t : Service) : Prop where
  items : t.cache.items = s.cache.items
  series : t.store.series = s.store.series
  arrange : t.store.arrange = s.store.arrange

section

variable {P : Store → Prop}
  (hP : ∀ {s t : Store}, P s → t.series = s.series → t.arrange = s.arrange → P t)
include hP

theorem rely_rests : Rely Plain (fun s => P s.store) Rests where
  refl _ := ⟨rfl, rfl, rfl⟩
  trans h k :=
    ⟨k.items.trans h.items, k.series.trans h.series, k.arrange.trans h.arrange⟩
  same hitems hseries harrange hs := ⟨hP hs hseries harrange, hitems, hseries, harrange⟩
  answers {question s answer t} := by
    rintro ⟨-, rfl⟩ hs
    have hseries := Store.series_read s.store question
    have harrange := Store.arrange_read s.store question
    exact ⟨hP hs hseries harrange, rfl, hseries, harrange⟩

theorem keeps_rests {σ : Type} : Keeps Plain (fun s => P s.store) Rests (fun _ : σ => True) plain := by
  intro question s x hs _
  have hrely := rely_rests hP
  have hanswers : Plain question s (plain question (s, x)).1 (plain question (s, x)).2.1 := ⟨rfl, rfl⟩
  obtain ⟨hs', hrests⟩ := hrely.answers hanswers hs
  exact ⟨s, _, hrely.refl s, hs, hanswers, hrely.refl _, hs', trivial⟩

end

/-- The reads that were answered are noted, and none is answered while reads fail. -/
theorem reads_perform {α σ : Type} {r : Reading α} {a : α} {s t : Service} {x y : σ}
    (h : perform plain r (s, x) = (.ok a, t, y)) :
    t.store.readsFail = s.store.readsFail ∧ s.store.reads.length ≤ t.store.reads.length ∧
      ∀ question next, r = .ask question next →
        s.store.readsFail = false ∧ s.store.reads.length < t.store.reads.length := by
  rw [perform] at h
  induction r generalizing s x with
  | done b =>
    cases h
    exact ⟨rfl, Nat.le_refl _, fun _ _ h => by cases h⟩
  | ask question next ih =>
    rw [Reading.perform] at h
    have hcounted : (s.countRead question).store = s.store := by cases question <;> rfl
    simp only [plain, Store.read, hcounted] at h
    cases hfail : s.store.readsFail with
    | true =>
      rw [hfail] at h
      cases h
    | false =>
      rw [hfail] at h
      simp only [Bool.false_eq_true, if_false] at h
      obtain ⟨hfails, hle, -⟩ := ih _ h
      rw [List.length_cons] at hle
      exact ⟨hfails, by omega, fun _ _ _ => ⟨rfl, by omega⟩⟩

/-- The answer to a request from the cache, at once or after a reading, and the service after it. -/
def fromCache? (q : Request) (s : Service) : Option (List Record × Service) :=
  match s.cache.start s.now q with
  | (.answer records, c) => some (records, { s with cache := c })
  | (.bypass _, _) => none
  | (.fill fill, c) =>
    let (result, t, _) := perform plain fill.reading ({ s with cache := c }, ())
    let (answer, c) := t.cache.finishFill t.now q fill result
    answer.map fun records => (records, { t with cache := c })

/-- The ways in which a request is answered from the cache. -/
inductive FromCache (q : Request) (s : Service) : List Record → Service → Prop
  | cached (records : List Record) (c : Cache)
      (hstart : s.cache.start s.now q = (.answer records, c)) :
      FromCache q s records { s with cache := c }
  | extended (fill : Fill) (c : Cache) (fetched : Fetched) (t : Service) (records : List Record)
      (c' : Cache) (hstart : s.cache.start s.now q = (.fill fill, c))
      (hread : perform plain fill.reading ({ s with cache := c }, ()) = (.ok fetched, t, ()))
      (hfinish : t.cache.finishFill t.now q fill (.ok fetched) = (some records, c')) :
      FromCache q s records { t with cache := c' }

theorem fromCache_of_eq_some {q : Request} {s t : Service} {records : List Record}
    (h : s.fromCache? q = some (records, t)) : FromCache q s records t := by
  rw [fromCache?] at h
  generalize hstart : s.cache.start s.now q = started at h
  obtain ⟨next, c⟩ := started
  cases next with
  | answer answer =>
    cases h
    exact .cached records c hstart
  | bypass held => cases h
  | fill fill =>
    simp only [] at h
    generalize hread : perform plain fill.reading ({ s with cache := c }, ()) = performed at h
    obtain ⟨result, u, ⟨⟩⟩ := performed
    simp only [] at h
    generalize hfinish : u.cache.finishFill u.now q fill result = finished at h
    obtain ⟨answer, c'⟩ := finished
    obtain ⟨answer, rfl, heq⟩ := Option.map_eq_some_iff.1 h
    cases heq
    cases result with
    | error e => cases hfinish
    | ok fetched => exact .extended fill c fetched u records c' hstart hread hfinish

theorem FromCache.get_eq {q : Request} {s t : Service} {records : List Record}
    (h : FromCache q s records t) : get plain true q (s, ()) = (.ok records, t, ()) := by
  rw [get, if_pos rfl, getThrough]
  cases h with
  | cached records c hstart => simp only [hstart]
  | extended fill c fetched t records c' hstart hread hfinish => simp only [hstart, hread, hfinish]

end Service

/-! ## What is missing right after an answer -/

/-- What an item at rest is once it has answered a request. -/
structure Item.Answered (q : Request) (item item' : Item) : Prop where
  history : item'.history = item.history
  active : item'.state = .active
  kind : item'.kind = item.kind
  covered : item'.coveredFrom = item.coveredFrom
  all : item'.cachedAll = true ↔ item.cachedAll = true ∨ q.FallsShort item.history.records

/-- An item for which nothing is put off stays when its last holder leaves it. -/
theorem Item.Answers.of_active {item : Item} {now : Int} {q : Request} {x : Option Item}
    (h : item.Answers now q x) (hs : item.history.Sorted) (hactive : item.state = .active) :
    ∃ item', x = some item' ∧ item.Answered q item' := by
  obtain ⟨n, hleaves⟩ := h
  obtain ⟨active, daily, hour, all, hitem, hall⟩ := Request.collect_item q now hs
  rw [hitem] at hleaves
  cases hleaves with
  | kept => exact ⟨_, rfl, rfl, hactive, rfl, rfl, hall⟩
  | removed _ hpending => exact absurd (hactive.symm.trans hpending) (by simp)
  | trimmed _ _ hclean => exact absurd (hactive.symm.trans hclean) (by simp)

namespace Request

variable {q : Request} {item item' : Item}

theorem missing?_eq_none_iff (q : Request) (hs : item.history.Sorted) : q.missing? item = none ↔
    q.count = 0 ∧ (item.covers q.windowStart = true ∨ item.uncachedUpTo ≤ q.windowStart) ∨
      q.count ≠ 0 ∧
        (item.covers q.countStart = true ∨ q.count ≤ q.reached item.history.records) := by
  have hcounted : q.count ≤ item.history.countUpTo q.upTo q.count ↔
      q.count ≤ q.reached item.history.records := by
    have hmin := hs.tidy.min_countUpTo hs.inOrder q.upTo q.count
    rw [reached]
    omega
  rw [missing?]
  simp only [hcounted]
  by_cases hcount : q.count = 0
  · rw [if_pos hcount, ite_eq_left_iff]
    refine ⟨fun h => Or.inl ⟨hcount, by_contra fun hnot => ?_⟩, fun h hnot => ?_⟩
    · cases h hnot
    · exact absurd (h.resolve_right fun h => h.1 hcount).2 hnot
  · rw [if_neg hcount, ite_eq_left_iff]
    refine ⟨fun h => Or.inr ⟨hcount, by_contra fun hnot => ?_⟩, fun h hnot => ?_⟩
    · cases h hnot
    · exact absurd (h.resolve_left fun h => hcount h.1).2 hnot

/-- Nothing is missing from an item with the same history that vouches for as much. -/
theorem missing?_of_covers (hs : item.history.Sorted) (hhistory : item'.history = item.history)
    (hcovers : ∀ sec, item.covers sec = true → item'.covers sec = true)
    (hmissing : q.missing? item = none) : q.missing? item' = none := by
  rw [q.missing?_eq_none_iff hs] at hmissing
  rw [q.missing?_eq_none_iff (hhistory ▸ hs), hhistory, Item.uncachedUpTo, hhistory]
  exact hmissing.imp (And.imp_right (Or.imp_left (hcovers _)))
    (And.imp_right (Or.imp_left (hcovers _)))

/-- What is missing is asked for. -/
theorem asks_of_missing {fill : Fill} (h : q.missing? item = some fill) :
    ∃ question next, fill.reading = .ask question next := by
  rcases missing?_eq_some h with ⟨-, -, -, rfl⟩ | ⟨-, -, -, rfl⟩
  · exact ⟨_, _, rfl⟩
  · simp only []
    rw [fetchCount]
    split
    · exact ⟨_, _, rfl⟩
    · rw [countBack, countBackFrom]
      exact ⟨_, _, rfl⟩

/-- A counted request with a window for which an item has too few records, without vouching for these
to be all. -/
structure Rereads (q : Request) (item : Item) : Prop where
  counts : q.count ≠ 0
  windowed : q.seconds ≠ 0
  few : q.reached item.history.records < q.count
  unsure : item.covers q.countStart = false

theorem Rereads.missing (h : q.Rereads item) (hs : item.history.Sorted) :
    q.missing? item ≠ none := by
  rw [ne_eq, q.missing?_eq_none_iff hs]
  rintro (⟨hcount, -⟩ | ⟨-, hcovers | hfound⟩)
  · exact h.counts hcount
  · rw [h.unsure] at hcovers
    cases hcovers
  · exact absurd h.few (Nat.not_lt.2 hfound)

end Request

namespace Item.Answered

variable {q : Request} {item item' : Item}

theorem covers (h : item.Answered q item') {sec : Int} (hcovers : item.covers sec = true) :
    item'.covers sec = true := by
  rw [Item.covers, Bool.or_eq_true] at hcovers ⊢
  rw [h.covered]
  exact hcovers.imp_left fun hall => h.all.2 (Or.inl hall)

/-- Of what was not missing for an answer, nothing is missing after it. -/
theorem missing (h : item.Answered q item') (hs : item.history.Sorted)
    (hmissing : q.missing? item = none) : q.missing? item' = none :=
  Request.missing?_of_covers hs h.history (fun _ => h.covers) hmissing

end Item.Answered

/-! ## What was read the first time -/

/-- What a counted reading brings: all records after the second of its request up to where the history
begins, which are not counted for it, and records up to that second, which are; but none of these if no
count follows the one that is wanted. -/
structure Fetched.Parted (q : Request) (low : Record → Prop) (upTo : Int) (needed : Nat)
    (fetched : Fetched) : Prop where
  counted : fetched.counted = fetched.records.countP fun r => decide (r.sec ≤ q.upTo.sec)
  later : ∀ r, low r → q.upTo.sec < r.sec → r.sec ≤ upTo → r ∈ fetched.records
  nothing : ¬ needed < maxCount → ∀ r ∈ fetched.records, q.upTo.sec < r.sec

theorem Request.Truthful.yields_parted {q : Request} {low high : Record → Prop}
    {A : StoreRead → List Record → Prop} (hA : q.Truthful low high A) (needed : Nat) (upTo : Int) :
    (q.fetchCount needed upTo).Yields A (Fetched.Parted q low upTo needed) := by
  refine Request.yields_fetchCount fun newer hnewer => ?_
  have hback : (q.countBack q.countStart needed (min upTo q.upTo.sec)).Yields A fun older =>
      (∀ r ∈ older, r.sec ≤ q.upTo.sec) ∧ (¬ needed < maxCount → older = []) := by
    by_cases hneeded : needed < maxCount
    · refine (hA.yields_countBack q.countStart (fun _ _ => hneeded) _).mono (fun _ _ h => h)
        fun older hback => ⟨fun r hr => ?_, fun hnot => absurd hneeded hnot⟩
      obtain ⟨m, -, holder, -⟩ := hback
      have := (holder.high r hr).2.2
      omega
    · refine (hA.yields_countBack_largest q.countStart hneeded _).mono (fun _ _ h => h)
        fun older hnil => ⟨fun r hr => ?_, fun _ => hnil⟩
      rw [hnil] at hr
      exact absurd hr List.not_mem_nil
  refine hback.mono (fun _ _ h => h) fun older ⟨holder, hnothing⟩ => ?_
  have hlater : ∀ r ∈ newer, q.upTo.sec < r.sec := by
    rcases hnewer with ⟨-, hnewer⟩ | ⟨-, rfl⟩
    · exact fun r hr => ((hA.byTime hnewer).high r hr).2.1
    · exact fun r hr => absurd hr List.not_mem_nil
  have hnone : newer.countP (fun r => decide (r.sec ≤ q.upTo.sec)) = 0 := by
    refine List.countP_eq_zero.2 fun r hr => ?_
    have := hlater r hr
    rw [decide_eq_true_iff]
    omega
  have hall : older.countP (fun r => decide (r.sec ≤ q.upTo.sec)) = older.length :=
    List.countP_eq_length.2 fun r hr => decide_eq_true (holder r hr)
  refine ⟨?_, fun r hr hafter hle => ?_, fun hneeded r hr => ?_⟩
  · change older.length = (Record.oldestFirst (newer ++ older)).countP _
    rw [(Record.oldestFirst_perm _).countP_eq, List.countP_append, hnone, hall, Nat.zero_add]
  · rw [Record.mem_oldestFirst, List.mem_append]
    rcases hnewer with ⟨-, hnewer⟩ | ⟨hnot, -⟩
    · exact Or.inl ((hA.byTime hnewer).complete r hr hafter hafter hle)
    · omega
  · rw [Record.mem_oldestFirst, hnothing hneeded, List.append_nil] at hr
    exact hlater r hr

theorem Item.uncachedUpTo_lt {item : Item} (hs : item.history.Sorted) {r : Record}
    (hr : r ∈ item.history.records) : item.uncachedUpTo < r.sec := by
  rw [uncachedUpTo, hs.tidy.oldest?_eq]
  cases holdest : item.history.records.head? with
  | none =>
    rw [List.head?_eq_none_iff.1 holdest] at hr
    exact absurd hr List.not_mem_nil
  | some oldest =>
    have := Record.sec_le_of_le (hs.inOrder.head_le holdest r hr)
    simp only []
    omega

/-- An item at rest whose history was extended for a request. -/
structure Extended (q : Request) (stored : List Record) (item : Item) (fill : Fill)
    (fetched : Fetched) (item' : Item) : Prop where
  missing : q.missing? item = some fill
  brought : fill.extent.Brought q (fun r => fill.extent.Countable ∧ r ∈ stored) (· ∈ stored)
    item.uncachedUpTo fetched
  regular : ∀ r ∈ stored, r.time.Regular
  parted : ∀ start needed, fill.extent = .count start needed →
    fetched.Parted q (· ∈ stored) item.uncachedUpTo needed
  sorted : item.history.Sorted
  sorted' : item'.history.Sorted
  records : item'.history.records =
    Cache.below item.history fetched.records ++ item.history.records
  answered : (fill.extent.mark fetched { item with history := item'.history }).Answered q item'

namespace Extended

variable {q : Request} {stored : List Record} {item item' : Item} {fill : Fill} {fetched : Fetched}

/-- Once its history is extended, an item that nothing is put off for answers and stays. -/
theorem of_answers {now : Int} {g : History} {x : Option Item} (hmissing : q.missing? item = some fill)
    (hbrought : fill.extent.Brought q (fun r => fill.extent.Countable ∧ r ∈ stored) (· ∈ stored)
      item.uncachedUpTo fetched)
    (hregular : ∀ r ∈ stored, r.time.Regular)
    (hparted : ∀ start needed, fill.extent = .count start needed →
      fetched.Parted q (· ∈ stored) item.uncachedUpTo needed)
    (hs : item.history.Sorted) (hactive : item.state = .active) (htidy : g.Tidy)
    (hrecords : g.records = Cache.below item.history fetched.records ++ item.history.records)
    (hanswers : (fill.extent.mark fetched { item with history := g }).Answers now q x) :
    ∃ item', x = some item' ∧ item'.history = g ∧ item'.state = .active ∧ item'.kind = item.kind ∧
      Extended q stored item fill fetched item' := by
  have hg : g.Sorted :=
    Cache.sorted_of_below hs hbrought.inOrder htidy List.suffix_rfl hrecords
  obtain ⟨all, covered, hmark⟩ := Cache.mark_eq fill.extent fetched { item with history := g }
  obtain ⟨item', rfl, hanswered⟩ := hanswers.of_active (by rw [Cache.mark_history]; exact hg)
    (by rw [hmark]; exact hactive)
  have hhistory : item'.history = g := by rw [hanswered.history, Cache.mark_history]
  have hkind : item'.kind = item.kind := by rw [hanswered.kind, hmark]
  refine ⟨item', rfl, hhistory, hanswered.active, hkind, hmissing, hbrought, hregular, hparted, hs,
    ?_, ?_, ?_⟩ <;> rw [hhistory] <;> assumption

/-- All that was read is below the history. -/
theorem records_eq (h : Extended q stored item fill fetched item') :
    item'.history.records = fetched.records ++ item.history.records := by
  rw [h.records, Cache.below, List.filter_eq_self.2]
  intro r hr
  obtain ⟨m, hspan, -⟩ := h.brought.spans
  have hle := (hspan.high r hr).2.2
  cases holdest : item.history.records.head? with
  | none => rfl
  | some oldest =>
    have hlt := h.sorted.tidy.oldest?_eq
    rw [holdest] at hlt
    rw [Item.uncachedUpTo, hlt] at hle
    simp only [] at hle
    rw [Option.all_some, decide_eq_true_iff]
    omega

theorem reached_eq (h : Extended q stored item fill fetched item') :
    q.reached item'.history.records =
      q.reached fetched.records + q.reached item.history.records := by
  rw [h.records_eq, Request.reached_append]

/-- A request that looks again has counted, for the number that the item lacked. -/
theorem fill_eq (h : Extended q stored item fill fetched item') (hre : q.Rereads item') :
    ∃ needed, needed = q.count - q.reached item.history.records ∧
      fill = ⟨.count q.countStart needed, item.tailWrites, q.fetchCount needed item.uncachedUpTo⟩ := by
  rcases Request.missing?_eq_some h.missing with ⟨hcount, -⟩ | ⟨-, -, hfew, rfl⟩
  · exact absurd hcount hre.counts
  · refine ⟨_, ?_, rfl⟩
    have hmin := h.sorted.tidy.min_countUpTo h.sorted.inOrder q.upTo q.count
    rw [Request.reached]
    omega

/-- It has read its whole range, if a count follows the one that it wanted, and at any rate what is later
than its second. -/
theorem mem_fetched (h : Extended q stored item fill fetched item') (hre : q.Rereads item')
    {r : Record} (hr : r ∈ stored) (hle : r.sec ≤ item.uncachedUpTo)
    (hrange : fill.extent.Countable ∧ fill.extent.after q < r.sec ∨ q.upTo.sec < r.sec) :
    r ∈ fetched.records := by
  obtain ⟨needed, hneeded, hfill⟩ := h.fill_eq hre
  rcases hrange with ⟨hcountable, hafter⟩ | hlater
  · obtain ⟨m, hspan, hdone⟩ := h.brought.spans
    have hm : m ≤ fill.extent.after q + 1 := hdone.resolve_right fun ⟨start, needed', heq, hfound⟩ => by
      rw [hfill] at heq
      cases heq
      have hreached := h.reached_eq
      have hfew := hre.few
      omega
    exact hspan.complete r ⟨hcountable, hr⟩ (by omega) hafter hle
  · exact (h.parted _ _ (by rw [hfill])).later r hr hlater hle

/-- So whatever the store has in that range is not below the history. -/
theorem exists_le (h : Extended q stored item fill fetched item') (hre : q.Rereads item')
    {r : Record} (hr : r ∈ stored)
    (hrange : fill.extent.Countable ∧ fill.extent.after q < r.sec ∨ q.upTo.sec < r.sec) :
    ∃ x ∈ item'.history.records, x.sec ≤ r.sec := by
  rw [h.records_eq]
  by_cases hle : r.sec ≤ item.uncachedUpTo
  · exact ⟨r, List.mem_append_left _ (h.mem_fetched hre hr hle hrange), Int.le_refl _⟩
  · obtain ⟨x, hx, hxr⟩ :=
      Item.lt_of_uncachedUpTo h.sorted (h.regular r hr) (Int.not_le.1 hle)
    exact ⟨x, List.mem_append_right _ hx, hxr⟩

/-- If no count followed the one that was wanted, then as much is wanted again. -/
theorem countable (h : Extended q stored item fill fetched item') (hre : q.Rereads item')
    (hcount : q.count - q.reached item'.history.records < maxCount) : fill.extent.Countable := by
  obtain ⟨needed, hneeded, hfill⟩ := h.fill_eq hre
  rw [hfill]
  by_contra hnot
  have hlater := (h.parted _ _ (by rw [hfill])).nothing hnot
  rw [h.reached_eq, Request.reached_eq_zero hlater, Nat.zero_add, ← hneeded] at hcount
  exact hnot hcount

/-- **A request that looks again** finds nothing. -/
theorem nothing (h : Extended q stored item fill fetched item') (hre : q.Rereads item') {fill' : Fill}
    {fetched' : Fetched} (hmissing : q.missing? item' = some fill')
    (hbrought : fill'.extent.Brought q (fun r => fill'.extent.Countable ∧ r ∈ stored) (· ∈ stored)
      item'.uncachedUpTo fetched')
    (hparted : ∀ start needed, fill'.extent = .count start needed →
      fetched'.Parted q (· ∈ stored) item'.uncachedUpTo needed) : fetched'.records = [] := by
  obtain ⟨needed, -, hfill⟩ := h.fill_eq hre
  rcases Request.missing?_eq_some hmissing with ⟨hcount, -⟩ | ⟨-, -, -, rfl⟩
  · exact absurd hcount hre.counts
  have hmin := h.sorted'.tidy.min_countUpTo h.sorted'.inOrder q.upTo q.count
  obtain ⟨m, hspan, -⟩ := hbrought.spans
  refine List.eq_nil_iff_forall_not_mem.2 fun r hr => ?_
  obtain ⟨hstored, hafter, hle⟩ := hspan.high r hr
  have hrange : fill.extent.Countable ∧ fill.extent.after q < r.sec ∨ q.upTo.sec < r.sec := by
    by_cases hcountable : q.count - item'.history.countUpTo q.upTo q.count < maxCount
    · refine Or.inl ⟨h.countable hre ?_, ?_⟩
      · rw [Request.reached]
        omega
      · rw [hfill]
        exact hafter
    · exact Or.inr ((hparted _ _ rfl).nothing hcountable r hr)
  obtain ⟨x, hx, hxr⟩ := h.exists_le hre hstored hrange
  have := Item.uncachedUpTo_lt h.sorted' hx
  omega

/-- **What is missing** for a request after its answer. -/
theorem missing_iff (h : Extended q stored item fill fetched item') :
    q.missing? item' = none ↔ ¬ q.Rereads item' := by
  refine ⟨fun hnone hre => hre.missing h.sorted' hnone, fun hnot => ?_⟩
  rw [q.missing?_eq_none_iff h.sorted']
  by_cases hcount : q.count = 0
  · refine Or.inl ⟨hcount, Or.inl ?_⟩
    rcases Request.missing?_eq_some h.missing with ⟨-, -, -, rfl⟩ | ⟨hne, -⟩
    · have hcovered : item'.coveredFrom = some q.windowStart := h.answered.covered
      rw [Item.covers, hcovered, Option.any_some, decide_eq_true (Int.le_refl _), Bool.or_true]
    · exact absurd hcount hne
  refine Or.inr ⟨hcount, ?_⟩
  by_contra hmissing
  rw [not_or, Bool.not_eq_true, Nat.not_le] at hmissing
  obtain ⟨hunsure, hfew⟩ := hmissing
  by_cases hseconds : q.seconds = 0
  · -- it has seen all there is
    have hshort := (Request.fallsShort_iff hcount hseconds _).2 hfew
    have hall := h.answered.all
    rw [Cache.mark_history] at hall
    rw [Item.covers, hall.2 (Or.inr hshort), Bool.true_or] at hunsure
    cases hunsure
  · exact hnot ⟨hcount, hseconds, hfew, hunsure⟩

/-- **The note of an item** falls short of what was read in two cases only. -/
theorem start_or_later (h : Extended q stored item fill fetched item') (hre : q.Rereads item') :
    q.countStart = 0 ∨ ∃ r ∈ stored, r.sec = q.upTo.sec ∧ ¬ r.time ≤ q.upTo := by
  by_contra hneither
  rw [not_or, not_exists] at hneither
  obtain ⟨hstart, hnone⟩ := hneither
  obtain ⟨needed, hneeded, rfl⟩ := h.fill_eq hre
  -- all that was counted is at or before the time of the request, and that is too little
  have hfew : fetched.counted < needed := by
    have hsame : fetched.records.countP (fun r => decide (r.sec ≤ q.upTo.sec)) ≤
        q.reached fetched.records := by
      obtain ⟨m, hspan, -⟩ := h.brought.spans
      refine List.countP_mono_left fun r hr hle => ?_
      rw [decide_eq_true_iff] at hle ⊢
      rcases Int.lt_or_eq_of_le hle with hlt | heq
      · exact Or.inl hlt
      · by_contra hlater
        exact hnone r ⟨(hspan.high r hr).1, heq, hlater⟩
    have hcounted := (h.parted _ _ rfl).counted
    have hreached := h.reached_eq
    have hfew := hre.few
    omega
  have hunsure := hre.unsure
  have hcovered : item'.coveredFrom = some q.countStart := by
    rw [h.answered.covered, Extent.mark]
    split
    · rw [if_neg (by omega)]
    · rw [if_neg hstart]
  rw [Item.covers, hcovered, Option.any_some, Bool.or_eq_false_iff, decide_eq_false_iff_not] at hunsure
  exact hunsure.2 (Int.le_refl _)

end Extended

/-! ## The second call -/

namespace Cache

variable {c c' : Cache} {now : Int} {q : Request} {item : Item}

/-- A request that begins on an item in the cache is answered by what is missing. -/
theorem Started.of_item {next : Start} (h : Started now q c next c')
    (hid : c.items[q.item]? = some item) (hstate : item.state ≠ .removePending)
    (hkind : item.kind = q.kind) :
    q.missing? item = none ∧ next = .answer (q.wanted item.history.records) ∨
      ∃ fill, q.missing? item = some fill ∧ next = .fill fill ∧
        c'.items[q.item]? = some { item with pins := item.pins + 1 } := by
  cases h with
  | past _ hnone => rw [hid] at hnone; cases hnone
  | refused found _ hfinds hunfit =>
    cases hfinds.eq_of_some hid
    exact absurd hunfit (not_or.2 ⟨hstate, not_not.2 hkind⟩)
  | fills found fill _ hfinds _ _ hmissing hup =>
    cases hfinds.eq_of_some hid
    exact Or.inr ⟨fill, hmissing, rfl, hup.1⟩
  | answers found x _ hfinds _ _ hmissing =>
    cases hfinds.eq_of_some hid
    exact Or.inl ⟨hmissing, rfl⟩

/-- A reading that brings nothing leaves the history as it is. -/
theorem finishFill_of_nil {fill : Fill} {fetched : Fetched} (hid : c.items[q.item]? = some item)
    (hs : item.history.Sorted) (hstate : item.state ≠ .removePending)
    (hwrites : fill.tailWrites = item.tailWrites) (hnone : fetched.records = []) :
    (c.finishFill now q fill (.ok fetched)).1 = some (q.wanted item.history.records) := by
  have hprepend : (c.checkOut q.item).prepend now q.item fetched.records item =
      (.ok (), item, c.checkOut q.item) := by
    rw [hnone, prepend, belowHistory]
    cases item.history.oldest? <;> rfl
  have hextend : c.extend now q fill fetched = (.ok (fill.extent.mark fetched item),
      (c.checkOut q.item).checkIn q.item (fill.extent.mark fetched item)) := by
    rw [extend, hid]
    simp only []
    rw [if_neg (not_or.2 ⟨not_not.2 hwrites.symm, hstate⟩), hprepend]
  rw [finishFill]
  simp only [hextend]
  have hs' : (fill.extent.mark fetched item).history.Sorted := by rwa [mark_history]
  rw [(answer_spec _ now q fetched.records.length hs').1, mark_history]

end Cache

namespace Service

variable {s t : Service} {q : Request} {records : List Record} {item : Item}

/-- **Nothing is read** for a request for which nothing is missing. -/
theorem get_of_cached {σ : Type} (b : Backend σ) (x : σ) (hs : t.cache.Sound fun _ _ _ => True)
    (hid : t.cache.items[q.item]? = some item) (hstate : item.state ≠ .removePending)
    (hkind : item.kind = q.kind) (hmissing : q.missing? item = none) :
    ∃ c, get b true q (t, x) = (.ok (q.wanted item.history.records), { t with cache := c }, x) := by
  generalize hstart : t.cache.start t.now q = started
  obtain ⟨next, c⟩ := started
  have hstarted := Cache.start_spec hs.sorted hstart
  rcases hstarted.of_item hid hstate hkind with ⟨-, rfl⟩ | ⟨fill, hsome, -⟩
  · refine ⟨c, ?_⟩
    rw [get, if_pos rfl, getThrough]
    simp only [hstart]
  · rw [hmissing] at hsome
    cases hsome

/-- What there is once a request was answered from the cache. -/
structure Remains (q : Request) (records : List Record) (t : Service) (item : Item) : Prop where
  cached : t.cache.items[q.item]? = some item
  active : item.state = .active
  kind : item.kind = q.kind
  sorted : t.cache.Sound fun _ _ _ => True
  regular : t.store.Regular
  answer : records = q.wanted item.history.records
  whence : q.missing? item = none ∨ t.store.readsFail = false ∧
    ∃ before fill fetched, Extended q (t.store.recordsOf q.item q.kind) before fill fetched item

/-- What a reading below a history brings from a store that stays as it is. -/
theorem brought_of_perform (hregular : s.store.Regular) {fill : Fill} {fetched : Fetched}
    (hmissing : q.missing? item = some fill)
    (hread : perform plain fill.reading (s, ()) = (.ok fetched, t, ())) :
    s.Rests t ∧ t.store.Regular ∧
      fill.extent.Brought q (fun r => fill.extent.Countable ∧ r ∈ t.store.recordsOf q.item q.kind)
        (· ∈ t.store.recordsOf q.item q.kind) item.uncachedUpTo fetched ∧
      ∀ start needed, fill.extent = .count start needed →
        fetched.Parted q (· ∈ t.store.recordsOf q.item q.kind) item.uncachedUpTo needed := by
  have hgrows : ∀ s t : Service, s.Rests t → s.store.Grows t.store :=
    fun s t h => .of_series h.series
  obtain ⟨hperformed, -⟩ := (keeps_rests Store.Regular.congr).perform (rely_rests Store.Regular.congr)
    fill.reading hregular trivial hread
  have hlawful : ∀ s : Service, s.store.Regular → s.store.Lawful := fun _ h => h.lawful
  have hbrought := brought_of_fill hlawful hgrows hmissing hperformed
  have hsame := Store.recordsOf_congr hperformed.leads.series q.item q.kind
  rw [← hsame] at hbrought
  refine ⟨hperformed.leads, hperformed.after, hbrought, fun start needed hextent => ?_⟩
  have htruthful := truthful_asked hlawful hgrows q s t
  rw [← hsame] at htruthful
  rcases Request.missing?_eq_some hmissing with ⟨-, -, -, rfl⟩ | ⟨-, -, -, rfl⟩
  · cases hextent
  · cases hextent
    exact hperformed.yields fetched rfl _ (htruthful.yields_parted _ _)

/-- **A request is answered from the cache.** -/
theorem FromCache.remains (hs : s.cache.Sound fun _ _ _ => True)
    (hactive : ∀ item, s.cache.items[q.item]? = some item → item.state = .active)
    (hregular : s.store.Regular) (h : FromCache q s records t) :
    t.store.series = s.store.series ∧ ∃ item, Remains q records t item := by
  have hfound : ∀ item, s.cache.Finds s.now q item → item.state = .active := by
    rintro item (hid | ⟨-, rfl⟩)
    · exact hactive item hid
    · rfl
  have hsorted : ∀ item, s.cache.Finds s.now q item → item.history.Sorted :=
    fun item hfinds => (hs.finds Cache.thins_true hfinds).sorted
  cases h with
  | cached records c hstart =>
    have hstarted := Cache.start_spec hs.sorted hstart
    have hs' := hs.started Cache.thins_true hstarted
    clear hstart
    cases hstarted with
    | answers item x _ hfinds _ hkind hmissing hanswers hup =>
      obtain ⟨item', rfl, hanswered⟩ := hanswers.of_active (hsorted item hfinds) (hfound item hfinds)
      have hhistory : item'.history = item.history := hanswered.history
      refine ⟨rfl, item', hup.1, hanswered.active, hanswered.kind.trans hkind, hs', hregular, ?_,
        Or.inl (hanswered.missing (hsorted item hfinds) hmissing)⟩
      rw [hhistory]
  | extended fill c fetched u records c' hstart hread hfinish =>
    have hstarted := Cache.start_spec hs.sorted hstart
    have hs' := hs.started Cache.thins_true hstarted
    clear hstart
    cases hstarted with
    | fills item _ _ hfinds _ hkind hmissing hup =>
      obtain ⟨hrests, hregular', hbrought, hparted⟩ :=
        brought_of_perform (s := { s with cache := c }) hregular hmissing hread
      have hid : u.cache.items[q.item]? = some { item with pins := item.pins + 1 } := by
        rw [hrests.items]
        exact hup.1
      have hs₁ : u.cache.Sound fun _ _ _ => True := hs'.congr hrests.items
      have ho : ∀ fetched', (.ok fetched : Except StoreFailure Fetched) = .ok fetched' →
          InOrder fetched'.records := fun _ h => by cases h; exact hbrought.inOrder
      have hfinished := Cache.finishFill_spec hid (hsorted item hfinds) ho hfinish
      have hs₂ := hs₁.finished Cache.thins_true hid (fun _ h => ⟨ho _ h, trivial⟩) hfinished
      have hfails : u.store.readsFail = false := by
        obtain ⟨hsame, -, hasks⟩ := reads_perform hread
        obtain ⟨question, next, hask⟩ := Request.asks_of_missing hmissing
        exact hsame.trans (hasks question next hask).1
      clear hfinish
      cases hfinished with
      | answers _ g x _ _ _ htidy hrecords hanswers hup =>
        obtain ⟨item', rfl, rfl, hactive', hkind', hextended⟩ := Extended.of_answers hmissing hbrought
          (fun r hr => hregular'.times _ _ r hr) hparted (hsorted item hfinds) (hfound item hfinds)
          htidy hrecords hanswers
        exact ⟨hrests.series, item', hup.1, hactive', hkind'.trans hkind, hs₂, hregular', rfl,
          Or.inr ⟨hfails, _, fill, fetched, hextended⟩⟩

namespace Remains

theorem sorted_item (h : Remains q records t item) : item.history.Sorted :=
  h.sorted.sorted _ item h.cached

theorem servable (h : Remains q records t item) : item.state ≠ .removePending := by simp [h.active]

theorem missing_iff (h : Remains q records t item) : q.missing? item = none ↔ ¬ q.Rereads item := by
  rcases h.whence with hnone | ⟨-, before, fill, fetched, hextended⟩
  · exact ⟨fun _ hre => hre.missing h.sorted_item hnone, fun _ => hnone⟩
  · exact hextended.missing_iff

/-- If nothing is missing, the cache answers at once. -/
theorem again_of_none (h : Remains q records t item) (hnone : q.missing? item = none) :
    ∃ c, get plain true q (t, ()) = (.ok records, { t with cache := c }, ()) := by
  rw [h.answer]
  exact get_of_cached plain () h.sorted h.cached h.servable h.kind hnone

/-- If something is missing, the store is asked for it and has nothing. -/
theorem again_of_some (h : Remains q records t item) {fill : Fill}
    (hmissing : q.missing? item = some fill) :
    ∃ u, get plain true q (t, ()) = (.ok records, u, ()) ∧
      t.store.reads.length < u.store.reads.length := by
  have hne : q.missing? item ≠ none := by simp [hmissing]
  have hre : q.Rereads item := by
    by_contra hnot
    exact hne (h.missing_iff.2 hnot)
  obtain ⟨hreads, before, fill₀, fetched₀, hextended⟩ := h.whence.resolve_left hne
  generalize hstart : t.cache.start t.now q = started
  obtain ⟨next, c⟩ := started
  have hstarted := Cache.start_spec h.sorted.sorted hstart
  rcases hstarted.of_item h.cached h.servable h.kind with ⟨hnone, -⟩ | ⟨_, hmissing', rfl, hid⟩
  · exact absurd hnone hne
  cases hmissing.symm.trans hmissing'
  obtain ⟨fetched, ⟨u, ⟨⟩⟩, hread⟩ :=
    perform_ok (s := { t with cache := c }) (x := ()) fill.reading hreads
  obtain ⟨hrests, -, hbrought, hparted⟩ :=
    brought_of_perform (s := { t with cache := c }) h.regular hmissing hread
  have hcontents : u.store.recordsOf q.item q.kind = t.store.recordsOf q.item q.kind :=
    Store.recordsOf_congr hrests.series _ _
  rw [hcontents] at hbrought hparted
  have hnothing := hextended.nothing hre hmissing hbrought hparted
  generalize hpinned : { item with pins := item.pins + 1 } = pinned at hid
  have hid' : u.cache.items[q.item]? = some pinned := by
    rw [hrests.items]
    exact hid
  have hhistory : pinned.history = item.history := by rw [← hpinned]
  have hstate : pinned.state ≠ .removePending := by rw [← hpinned]; exact h.servable
  have hwrites : fill.tailWrites = pinned.tailWrites := by
    rw [← hpinned]
    exact Request.tailWrites_of_missing hmissing
  have hanswer : (u.cache.finishFill u.now q fill (.ok fetched)).1 =
      some (q.wanted pinned.history.records) :=
    Cache.finishFill_of_nil hid' (hhistory ▸ h.sorted_item) hstate hwrites hnothing
  generalize hfinish : u.cache.finishFill u.now q fill (.ok fetched) = finished at hanswer
  obtain ⟨answer, c'⟩ := finished
  cases hanswer
  obtain ⟨-, -, hasks⟩ := reads_perform hread
  obtain ⟨question, next, hask⟩ := Request.asks_of_missing hmissing
  refine ⟨{ u with cache := c' }, ?_, (hasks question next hask).2⟩
  rw [get, if_pos rfl, getThrough]
  simp only [hstart, hread, hfinish, h.answer, hhistory]

/-- **The same request once more** gets the same list, and reads if something is missing for it. -/
theorem again (h : Remains q records t item) :
    ∃ u, get plain true q (t, ()) = (.ok records, u, ()) ∧
      (u.store.reads = t.store.reads ↔ q.missing? item = none) := by
  cases hmissing : q.missing? item with
  | none =>
    obtain ⟨c, hget⟩ := h.again_of_none hmissing
    exact ⟨_, hget, fun _ => rfl, fun _ => rfl⟩
  | some fill =>
    obtain ⟨u, hget, hmore⟩ := h.again_of_some hmissing
    refine ⟨u, hget, fun hsame => ?_, fun hnone => by cases hnone⟩
    rw [hsame] at hmore
    exact absurd hmore (Nat.lt_irrefl _)

/-- A request that reads once more goes back to the first second, or there are later records of its
second. -/
theorem start_or_later (h : Remains q records t item) (hre : q.Rereads item) : q.countStart = 0 ∨
    ∃ r ∈ t.store.recordsOf q.item q.kind, r.sec = q.upTo.sec ∧ ¬ r.time ≤ q.upTo := by
  rcases h.whence with hnone | ⟨-, before, fill, fetched, hextended⟩
  · exact absurd hnone (hre.missing h.sorted_item)
  · exact hextended.start_or_later hre

end Remains

end Service

/-- **A repeated request** with no request in flight and nothing in between gets the same list.  It
reads the store again only if it wants a number of records from a window and its item has too few,
with no note that these are all; then the window goes back to the first second, or the store has
records of the second of the request that are later than the request. -/
theorem Traffic.repeats_of_possible {config : Config} {s t : Service} {q : Request}
    {records : List Record} (hs : Possible config ⟨s, []⟩) (hstore : s.store.Regular)
    (hfirst : s.fromCache? q = some (records, t)) :
    Service.get Service.plain true q (s, ()) = (.ok records, t, ()) ∧
    ∃ (item : Item) (u : Service), t.cache.items[q.item]? = some item ∧
      Service.get Service.plain true q (t, ()) = (.ok records, u, ()) ∧
      (u.store.reads = t.store.reads ↔ ¬ q.Rereads item) ∧
      (q.Rereads item → q.countStart = 0 ∨
        ∃ r ∈ s.store.recordsOf q.item q.kind, r.sec = q.upTo.sec ∧ ¬ r.time ≤ q.upTo) := by
  have hcached := Service.fromCache_of_eq_some hfirst
  have hsound := hs.sound
  have hactive : ∀ item, s.cache.items[q.item]? = some item → item.state = .active := by
    intro item hid
    refine hsound.prompt _ item hid ?_
    rw [← Cache.Holds.pinsOf_some hid]
    exact hsound.pins q.item
  obtain ⟨hseries, item, hremains⟩ := hcached.remains hsound.sorted hactive hstore
  obtain ⟨u, hagain, hreads⟩ := hremains.again
  refine ⟨hcached.get_eq, item, u, hremains.cached, hagain, hreads.trans hremains.missing_iff,
    fun hre => ?_⟩
  rw [← Store.recordsOf_congr hseries]
  exact hremains.start_or_later hre

/-- A request for the newest value of item 7. -/
def newestOf7 : Request := .latest 7 .uint ⟨1000, 0⟩

/-- **A repeated request may read again**: with nothing in the store, every request for the newest
value reads. -/
theorem Traffic.not_repeats_newest : ∃ t u : Service, Possible {} ⟨newService, []⟩ ∧
    newService.store.Regular ∧ newService.fromCache? newestOf7 = some ([], t) ∧
    Service.get Service.plain true newestOf7 (t, ()) = (.ok [], u, ()) ∧
    u.store.reads ≠ t.store.reads := by
  have htwice : (newService.fromCache? newestOf7).map (fun first => (first.1,
      first.2.store.reads.length, (Service.get Service.plain true newestOf7 (first.2, ())).1,
      (Service.get Service.plain true newestOf7 (first.2, ())).2.1.store.reads.length)) =
      some ([], 2, .ok [], 4) := by cbv
  obtain ⟨⟨records, t⟩, hfirst, htwice⟩ := Option.map_eq_some_iff.1 htwice
  generalize hsecond : Service.get Service.plain true newestOf7 (t, ()) = second at htwice
  obtain ⟨result, u, ⟨⟩⟩ := second
  simp only [Prod.mk.injEq] at htwice
  obtain ⟨rfl, hreads, rfl, hreads'⟩ := htwice
  refine ⟨t, u, .new 1000 newService new_newService, Store.regular_empty fun _ _ => .refl _, hfirst,
    hsecond, fun hsame => ?_⟩
  rw [hsame, hreads] at hreads'
  cases hreads'

/-- A record of item 8 that is later than the request, but of its second, is counted for it. -/
example : (({ newService with store := ({} : Store).put ⟨8, ⟨⟨1000, 5⟩, .uint 1⟩⟩ } : Service).fromCache?
    ⟨8, .uint, 60, 1, ⟨1000, 0⟩⟩).map (fun first => (first.1, first.2.store.reads.length,
      (Service.get Service.plain true ⟨8, .uint, 60, 1, ⟨1000, 0⟩⟩
        (first.2, ())).2.1.store.reads.length)) = some ([], 2, 3) := by cbv

/-- Two numbers of the last minute, where one is stored. -/
def twoOfLastMinute : Request := ⟨7, .uint, 60, 2, ⟨1000, 0⟩⟩

/-- The minute that was read for a number that it does not have is not read again. -/
theorem Traffic.repeats_twoOfLastMinute : ∃ t u : Service,
    turnedOn.fromCache? twoOfLastMinute = some ([⟨⟨990, 0⟩, .uint 2⟩], t) ∧
    t.store.reads.length = 2 ∧
    Service.get Service.plain true twoOfLastMinute (t, ()) =
      (.ok [⟨⟨990, 0⟩, .uint 2⟩], u, ()) ∧ u.store.reads = t.store.reads := by
  have honce : (turnedOn.fromCache? twoOfLastMinute).map (fun first => (first.1,
      first.2.store.reads.length, (first.2.cache.items[7]?).map fun item =>
        item.covers twoOfLastMinute.countStart)) =
      some ([⟨⟨990, 0⟩, .uint 2⟩], 2, some true) := by cbv
  obtain ⟨⟨records, t⟩, hfirst, honce⟩ := Option.map_eq_some_iff.1 honce
  simp only [Prod.mk.injEq] at honce
  obtain ⟨rfl, hreads, hcovers⟩ := honce
  have h₀ : Possible {} ⟨newService, []⟩ := .new 1000 newService new_newService
  have h₁ : Possible {} ⟨turnedOn, []⟩ := (closed_possible {}).elsewhere h₀ rfl rfl rfl
  obtain ⟨-, item, u, hid, hsecond, hsame, -⟩ :=
    repeats_of_possible h₁ regular_twoApart hfirst
  refine ⟨t, u, hfirst, hreads, hsecond, hsame.2 fun hre => ?_⟩
  obtain ⟨item', hid', hcovers⟩ := Option.map_eq_some_iff.1 hcovers
  rw [show t.cache.items[7]? = some item from hid] at hid'
  cases hid'
  rw [hre.unsure] at hcovers
  cases hcovers

end HistoryCache
