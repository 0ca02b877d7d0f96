import HistoryCache.Proofs.Accounting

/-!
# What a call does to other items

A request is for one item and a write for the items of its records.  What either does to any other
item is to evict it, for want of memory, and only if nobody holds it (`Cache.Spares`): no path by which
memory is given back reaches into an item that is left.  A write brings in no item, and a request no
other than its own.

* `Cache.Started.spares`, `Cache.Finished.spares`, `Cache.Spares.finishBypass`, `Cache.Spares.ingest`:
  the steps.
* `Traffic.frame_of_possible`: a call with nothing of others in between.
-/

namespace HistoryCache

/-- The items that a request or a write is for.  Other calls are for none. -/
def Call.names? : Call → Option (List ItemId)
  | get q => some [q.item]
  | last item _ _ => some [item]
  | add writes => some (writes.map ItemRecord.item)
  | remove _ | reset | stats | memory | items | top _ => none

/-- Nobody does anything to the cache while the store is asked. -/
def Backend.Quiet {σ : Type} (b : Backend σ) : Prop :=
  ∀ question s x, (b question (s, x)).2.1.cache = s.cache

namespace Cache

/-- An item is what it was, or it was evicted and nobody held it. -/
def Spares (id : ItemId) (c c' : Cache) : Prop :=
  c'.items[id]? = c.items[id]? ∨
    c'.items[id]? = none ∧ ∃ item, c.items[id]? = some item ∧ item.pins = 0

variable {c c' c'' : Cache} {id : ItemId} {now : Int} {q : Request}

namespace Spares

theorem of_items (h : c'.items = c.items) : Spares id c c' := Or.inl (by rw [h])

theorem trans (h : Spares id c c') (k : Spares id c' c'') : Spares id c c'' := by
  rcases k with hsame | ⟨hnone, item, hitem, hpins⟩
  · rw [Spares, hsame]
    exact h
  · rcases h with hsame | ⟨hnone', -⟩
    · exact Or.inr ⟨hnone, item, by rw [← hsame, hitem], hpins⟩
    · rw [hnone'] at hitem
      cases hitem

theorem of_none (h : Spares id c c') (hnone : c.items[id]? = none) : c'.items[id]? = none := by
  rcases h with hsame | ⟨hnone', -⟩
  · rw [hsame, hnone]
  · exact hnone'

end Spares

/-! ## Steps -/

theorem Updates.spares {j : ItemId} {x : Option Item} (hup : Updates j x c c') (hid : id ≠ j) :
    Spares id c c' := hup.2 id hid

theorem Started.spares {next : Start} (h : Started now q c next c') (hid : id ≠ q.item) :
    Spares id c c' := by
  cases h with
  | past _ _ hup => exact hup.spares hid
  | refused _ _ _ _ hup => exact hup.spares hid
  | fills _ _ _ _ _ _ _ hup => exact hup.spares hid
  | answers _ _ _ _ _ _ _ _ hup => exact hup.spares hid

theorem Finished.spares {fill : Fill} {item : Item} {result : Except StoreFailure Fetched}
    {answer : Option (List Record)} (h : Finished now q fill item c result answer c')
    (hid : id ≠ q.item) : Spares id c c' := by
  cases h with
  | lost _ _ _ _ _ hup => exact hup.spares hid
  | answers _ _ _ _ _ _ _ _ _ hup => exact hup.spares hid

namespace Spares

theorem finishBypass (hs : c.Sound fun _ _ _ => True) (held : Bool)
    (result : Except StoreFailure (List Record)) (hid : id ≠ q.item) :
    Spares id c (c.finishBypass now q held result) := by
  rcases finishBypass_spec now q held result (fun item hq => hs.sorted _ item hq) with
    ⟨hitems, -⟩ | ⟨-, item, x, -, -, hup⟩
  · exact of_items hitems
  · exact hup.spares hid

theorem ingestOne (hs : c.Sound fun _ _ _ => True) (expireBefore : Int) {w : ItemRecord}
    (hid : id ≠ w.item) : Spares id c (Cache.ingestOne now expireBefore c w) := by
  rcases ingestOne_spec now expireBefore (fun item hw => hs.sorted w.item item hw) with
    ⟨-, hitems⟩ | ⟨item, item', x, -, -, -, hup⟩
  · exact of_items hitems
  · exact hup.spares hid

theorem ingest (hs : c.Sound fun _ _ _ => True) {writes : List ItemRecord}
    (hid : id ∉ writes.map ItemRecord.item) : Spares id c (c.ingest now writes) := by
  rw [Cache.ingest]
  generalize c.expireBefore now = expireBefore
  induction writes generalizing c with
  | nil => exact of_items rfl
  | cons w writes ih =>
    rw [List.map_cons, List.mem_cons, not_or] at hid
    obtain ⟨hw, hwrites⟩ := hid
    exact (ingestOne hs expireBefore hw).trans (ih (hs.ingestOne_sorted expireBefore w) hwrites)

end Spares

/-- A written record does not bring its item into the cache, let alone another. -/
theorem ingestOne_of_none (hs : c.Sound fun _ _ _ => True) (expireBefore : Int) (w : ItemRecord)
    (hnone : c.items[id]? = none) : (ingestOne now expireBefore c w).items[id]? = none := by
  by_cases hid : id = w.item
  · subst hid
    rcases ingestOne_spec now expireBefore (fun item hw => hs.sorted w.item item hw) with
      ⟨-, hitems⟩ | ⟨item, -, -, hitem, -⟩
    · rw [hitems, hnone]
    · rw [hnone] at hitem
      cases hitem
  · exact (Spares.ingestOne hs expireBefore hid).of_none hnone

theorem ingest_of_none (hs : c.Sound fun _ _ _ => True) (writes : List ItemRecord)
    (hnone : c.items[id]? = none) : (c.ingest now writes).items[id]? = none := by
  rw [ingest]
  generalize c.expireBefore now = expireBefore
  induction writes generalizing c with
  | nil => exact hnone
  | cons w writes ih =>
    exact ih (hs.ingestOne_sorted expireBefore w) (ingestOne_of_none hs expireBefore w hnone)

/-- A text of a cached record is in the pool. -/
theorem Balanced.contains (h : c.Balanced 0) {item : Item} (hid : c.items[id]? = some item)
    {text : String} (htext : text ∈ item.texts) : c.strings.contains text := by
  have hrefs := h.balances.refs text
  rw [h.balances.pooled, hrefs, add_zero, held_eq, Multiset.count_add, count_blockCharges,
    count_textCharges, Nat.zero_add, List.count_pos_iff, texts, List.mem_flatMap]
  exact ⟨(id, item), Std.ExtTreeMap.mem_toList_iff_getElem?_eq_some.2 hid, htext⟩

end Cache

/-! ## Calls -/

section Calls

variable {config : Config} {σ : Type} {b : Backend σ} {s : Service} {flights : List Flight} {x : σ}
  {q : Request} {id : ItemId}

theorem Backend.Quiet.carries (hb : b.Quiet) :
    Carries (Traffic.Possible config) (fun _ => True) b := by
  intro question s x flights hs _
  exact ⟨(Traffic.closed_possible config).kept.aside hs (.of_eq (hb question s x)), trivial⟩

/-- An operation of which nobody else takes advantage. -/
theorem Backend.Quiet.does (hb : b.Quiet) (s : Service) (op : Operation) (x : σ) :
    Does (fun _ s _ t => t.cache = s.cache) (fun _ _ => True) Eq s
      (Service.execute b b op (s, x)).2.1 := by
  have hadmits : Admits (fun _ s _ t => t.cache = s.cache) Eq b :=
    fun question s x => ⟨s, _, rfl, hb question s x, rfl⟩
  exact ⟨σ, b, b, op, x, hadmits, hadmits, trivial, rfl⟩

namespace Service

/-- A reading does nothing to a cache but set its metrics. -/
theorem same_perform {α : Type} (hb : b.Quiet) (r : Reading α) (s : Service) (x : σ) :
    Cache.Same s.cache (perform b r (s, x)).2.1.cache := by
  rw [perform]
  induction r generalizing s x with
  | done a => exact .refl
  | ask question next ih =>
    have hcounted : Cache.Same s.cache (s.countRead question).cache := by
      cases question <;> exact .measure _ _
    have hasked : Cache.Same s.cache (b question (s.countRead question, x)).2.1.cache := by
      rw [hb]
      exact hcounted
    rw [Reading.perform]
    simp only []
    generalize b question (s.countRead question, x) = answered at hasked ⊢
    obtain ⟨answer, t, y⟩ := answered
    cases answer with
    | error e => exact hasked
    | ok records => exact hasked.trans (ih records t y)

theorem spares_bypass (hb : b.Quiet) {held : Bool}
    (hs : Traffic.Possible config ⟨s, .passing q held q.direct :: flights⟩) (hid : id ≠ q.item) :
    Cache.Spares id s.cache (bypass b q held (s, x)).2.1.cache := by
  have hread := (same_perform hb q.direct s x).items
  have hsound : (perform b q.direct (s, x)).2.1.cache.Sound fun _ _ _ => True :=
    hs.sound.sorted.congr hread
  exact (Cache.Spares.of_items hread).trans (.finishBypass hsound held _ hid)

/-- **A request** does nothing to the items of others but evict some. -/
theorem spares_getThrough (hb : b.Quiet) (hs : Traffic.Possible config ⟨s, flights⟩)
    (hid : id ≠ q.item) : Cache.Spares id s.cache (getThrough b q (s, x)).2.1.cache := by
  have hP := (Traffic.closed_possible config).kept
  rw [getThrough]
  simp only []
  generalize hstart : s.cache.start s.now q = started
  obtain ⟨next, c⟩ := started
  have hbegun := hP.begins q hstart hs
  have hstarted := (Cache.start_spec hs.sound.sorted.sorted hstart).spares hid
  cases next with
  | answer records => exact hstarted
  | bypass held => exact hstarted.trans (spares_bypass hb hbegun hid)
  | fill fill =>
    obtain ⟨rest, hends, ht, -⟩ := hP.perform hb.carries (fun r => .filling q fill r :: flights)
      (fun s question next records h =>
        hP.reads (.filling q fill question next records) h)
      fill.reading hbegun (x := x) trivial
    have hread := (same_perform hb fill.reading { s with cache := c } x).items
    simp only []
    generalize perform b fill.reading ({ s with cache := c }, x) = performed at hends ht hread
    obtain ⟨result, t, y⟩ := performed
    have hstarted' : Cache.Spares id s.cache t.cache := hstarted.trans (.of_items hread)
    simp only []
    generalize hfinish : t.cache.finishFill t.now q fill result = finished
    obtain ⟨answer, c'⟩ := finished
    obtain ⟨item, -, -, hfinished, -⟩ := ht.sound.finished List.mem_cons_self hends hfinish
    have hspared := hstarted'.trans (hfinished.spares hid)
    cases answer with
    | some records => exact hspared
    | none =>
      exact hspared.trans (spares_bypass hb (hP.loses hends hfinish ht) hid)

theorem spares_get (hb : b.Quiet) (hs : Traffic.Possible config ⟨s, flights⟩) (enabled : Bool)
    (hid : id ≠ q.item) : Cache.Spares id s.cache (get b enabled q (s, x)).2.1.cache := by
  cases enabled with
  | true => exact spares_getThrough hb hs hid
  | false => exact .of_items (same_perform hb q.direct s x).items

/-- What a write does to the cache, if anything. -/
theorem cache_add (s : Service) (enabled : Bool) (writes : List ItemRecord) :
    (s.add enabled writes).2.cache = s.cache ∨
      (s.add enabled writes).2.cache = s.cache.ingest s.now writes := by
  rw [add]
  split
  · exact Or.inl rfl
  · cases enabled with
    | true => exact Or.inr rfl
    | false => exact Or.inl rfl

theorem spares_call (hb : b.Quiet) (hs : Traffic.Possible config ⟨s, flights⟩)
    (enabled resets : Bool) {c : Call} {ids : List ItemId} (hnames : c.names? = some ids)
    (hid : id ∉ ids) :
    Cache.Spares id s.cache (call b enabled resets c (s, x)).2.1.cache := by
  cases c with
  | get q =>
    cases hnames
    rw [List.mem_singleton] at hid
    exact spares_get hb hs enabled hid
  | last item kind upTo =>
    cases hnames
    rw [List.mem_singleton] at hid
    exact spares_get (q := .latest item kind upTo) hb hs enabled hid
  | add writes =>
    cases hnames
    show Cache.Spares id s.cache (s.add enabled writes).2.cache
    rcases cache_add s enabled writes with hcache | hcache
    · exact .of_items (by rw [hcache])
    · rw [hcache]
      exact .ingest hs.sound.sorted hid
  | remove | reset | stats | memory | items | top => cases hnames

/-- Who brings an item in is a request for it. -/
theorem request_of_none (hb : b.Quiet) (hs : Traffic.Possible config ⟨s, flights⟩)
    (enabled resets : Bool) {c : Call} {ids : List ItemId} (hnames : c.names? = some ids)
    (hnone : s.cache.items[id]? = none)
    (hsome : (call b enabled resets c (s, x)).2.1.cache.items[id]? ≠ none) :
    ∃ q, c.request? = some q ∧ q.item = id := by
  cases c with
  | get q =>
    refine ⟨q, rfl, ?_⟩
    by_contra hid
    exact hsome ((spares_get hb hs enabled (Ne.symm hid)).of_none hnone)
  | last item kind upTo =>
    refine ⟨.latest item kind upTo, rfl, ?_⟩
    by_contra hid
    exact hsome ((spares_get (q := .latest item kind upTo) hb hs enabled (Ne.symm hid)).of_none hnone)
  | add writes =>
    change (s.add enabled writes).2.cache.items[id]? ≠ none at hsome
    rcases cache_add s enabled writes with hcache | hcache
    · rw [hcache] at hsome
      exact absurd hnone hsome
    · rw [hcache] at hsome
      exact absurd (Cache.ingest_of_none hs.sound.sorted writes hnone) hsome
  | remove | reset | stats | memory | items | top => cases hnames

end Service

/-- **The frame of a call.**  What a request or a write leaves of the items that it is not for, with
nothing of others in between. -/
theorem Traffic.frame_of_possible (hs : Possible config ⟨s, flights⟩) (hb : b.Quiet) {c : Call}
    {ids : List ItemId} (hnames : c.names? = some ids) (enabled resets : Bool) {t : Service} {y : σ}
    {reply : Reply} (hcall : Service.call b enabled resets c (s, x) = (reply, t, y)) :
    -- another item is what it was, or gone as a whole, and then nobody held it
    (∀ id : ItemId, id ∉ ids → t.cache.items[id]? = s.cache.items[id]? ∨
      t.cache.items[id]? = none ∧ ∃ item, s.cache.items[id]? = some item ∧ item.pins = 0) ∧
    -- every text of a record that is left is still in the pool
    (∀ (id : ItemId) (item : Item), t.cache.items[id]? = some item →
      ∀ text ∈ item.texts, t.cache.strings.contains text) ∧
    -- a write brings no item in, and a request no other than its own
    ∀ id : ItemId, s.cache.items[id]? = none → t.cache.items[id]? ≠ none →
      ∃ q, c.request? = some q ∧ q.item = id := by
  obtain ⟨ht, -⟩ := (closed_possible config).kept.call hb.carries enabled resets c hs (x := x) trivial
  rw [hcall] at ht
  refine ⟨fun id hid => ?_, fun id item hid text htext => ht.balanced.contains hid htext,
    fun id hnone hsome => ?_⟩
  · have hspares := Service.spares_call hb hs enabled resets (x := x) hnames hid
    rw [hcall] at hspares
    exact hspares
  · refine Service.request_of_none hb hs enabled resets (x := x) hnames hnone ?_
    rw [hcall]
    exact hsome

/-- A text of item 8, which is the one that `textService` has for item 7. -/
def textOf8 : Call := .get ⟨8, .str, 60, 0, ⟨1000, 0⟩⟩

/-- Item 8 is read into a cache that has item 7, with a text that both have. -/
theorem Traffic.frame_shared_text : ∃ (t : Service) (item : Item), Possible {} ⟨textService, []⟩ ∧
    (Service.call oneTextTwice true true textOf8 (textService, ())).2.1 = t ∧
    textService.cache.items[7]? = some item ∧ t.cache.items[7]? = some item ∧
    textService.cache.items[8]? = none ∧ t.cache.items[8]? ≠ none ∧
    item.texts = ["on", "on"] ∧ t.cache.strings.contains "on" := by
  have hbefore : (textService.cache.items[7]?).map Item.texts = some ["on", "on"] := by cbv
  have hnew : (textService.cache.items[8]?).isNone := by cbv
  have hafter : ((Service.call oneTextTwice true true textOf8 (textService, ())).2.1.cache.items[7]?.isSome,
      (Service.call oneTextTwice true true textOf8 (textService, ())).2.1.cache.items[8]?.isSome) =
      (true, true) := by cbv
  obtain ⟨item, hid, htexts⟩ := Option.map_eq_some_iff.1 hbefore
  generalize hcall : Service.call oneTextTwice true true textOf8 (textService, ()) = called at hafter
  obtain ⟨reply, t, ⟨⟩⟩ := called
  obtain ⟨hleft, hadmitted⟩ := Prod.mk.inj hafter
  obtain ⟨hframe, hpooled, -⟩ := frame_of_possible possible_textService (fun _ _ _ => rfl)
    (c := textOf8) rfl true true hcall
  have hsame : t.cache.items[7]? = some item := by
    rcases hframe 7 (by decide) with hsame | ⟨hnone, -⟩
    · rw [hsame, hid]
    · rw [hnone] at hleft
      cases hleft
  refine ⟨t, item, possible_textService, rfl, hid, hsame, Option.isNone_iff_eq_none.1 hnew,
    Option.isSome_iff_ne_none.1 hadmitted, htexts, ?_⟩
  exact hpooled 7 item hsame "on" (by rw [htexts]; exact List.mem_cons_self)

end Calls

end HistoryCache
