import HistoryCache.Proofs.Operations
import HistoryCache.Proofs.Traffic
import Mathlib

/-!
# The life of a cached item

An item counts those who hold it.  While requests are in flight in any number, started, answered and
finished in any order, that count is the number of requests in flight that hold the item, and a held
item stays what it is: it is taken out of the cache by its last holder and by nobody else.

* `Traffic.Step.flies`: where the requests come from that are in flight after a step.
* `Traffic.Possible.sound`: the invariant, with the counts of holders in it.
* `Traffic.Sound.lives`: what a single step makes of an item that somebody holds (`Item.Lives`).
* `Traffic.life_of_possible`: the life of an item as a whole.
-/

namespace HistoryCache

namespace Item

/-- Nothing is put off for an item that nobody holds. -/
def Prompt (item : Item) : Prop := item.pins = 0 → item.state = .active

theorem Leaves.prompt {item : Item} {now : Int} {x : Option Item} (h : item.Leaves now x) :
    ∀ item', x = some item' → item'.Prompt := by
  intro item' hx
  cases h with
  | kept hstay =>
    cases hx
    intro hnobody
    change item.pins - 1 = 0 at hnobody
    exact hstay.resolve_left (by omega)
  | removed => cases hx
  | trimmed => cases hx; exact fun _ => rfl

theorem Answers.prompt {item : Item} {now : Int} {q : Request} {x : Option Item}
    (h : item.Answers now q x) : ∀ item', x = some item' → item'.Prompt := by
  obtain ⟨n, hleaves⟩ := h
  exact hleaves.prompt

/-- What becomes of an item that somebody held, where `holders` hold it afterwards. -/
inductive Lives (item : Item) : (holders : Nat) → Option Item → Prop
  /-- Somebody still holds it, and it is what it was or was added to. -/
  | held (others : Nat) (item' : Item) (hlater : item.Later (fun _ => False) item') :
      Lives item (others + 1) (some item')
  /-- Its last holder left it, and it was to be removed. -/
  | removed (hlast : item.pins = 1) (hstate : item.state = .removePending) : Lives item 0 none
  /-- Its last holder left it, and did what was put off. -/
  | left (item' : Item) (hlast : item.pins = 1) (hstate : item.state ≠ .removePending)
      (hactive : item'.state = .active) : Lives item 0 (some item')

/-- Somebody who held an item leaves it, after the item was added to. -/
theorem Leaves.lives {item item₁ : Item} {now : Int} {x : Option Item} (h : item₁.Leaves now x)
    (hheld : 0 < item.pins) (hpins : item₁.pins = item.pins)
    (hlater : item.Later (fun _ => False) item₁)
    (hstate : item₁.state = .removePending ↔ item.state = .removePending) :
    item.Lives (x.elim 0 Item.pins) x := by
  by_cases hothers : 1 < item.pins
  · rw [h.of_held (by omega), Option.elim_some]
    obtain ⟨others, hn⟩ : ∃ others, item₁.pins - 1 = others + 1 := ⟨item₁.pins - 2, by omega⟩
    simp only [hn]
    refine .held others _ (hlater.trans_left ?_)
    exact .of_records rfl rfl rfl fun _ hr => hr
  have hlast : item.pins = 1 := by omega
  cases x with
  | none =>
    cases h with
    | removed _ hpending => exact .removed hlast (hstate.1 hpending)
  | some item' =>
    have hnobody : item'.pins = 0 := by
      have := h.pins item' rfl
      omega
    have hactive := h.prompt item' rfl hnobody
    rw [Option.elim_some, hnobody]
    refine .left item' hlast (fun hpending => ?_) hactive
    rw [← hstate] at hpending
    cases h with
    | kept => rw [hpending] at hactive; cases hactive
    | trimmed _ _ hclean => rw [hpending] at hclean; cases hclean

end Item

/-- The item that a request in flight holds. -/
def Flight.holds : Flight → Option ItemId
  | filling q _ _ | passing q true _ => some q.item
  | passing _ false _ => none

/-- The number of requests in flight that hold an item. -/
def holders (flights : List Flight) (id : ItemId) : Nat :=
  flights.countP fun f => decide (f.holds = some id)

theorem holders_append (before after : List Flight) (id : ItemId) :
    holders (before ++ after) id = holders before id + holders after id := List.countP_append

theorem holders_cons (f : Flight) (flights : List Flight) (id : ItemId) :
    holders (f :: flights) id = holders flights id + if f.holds = some id then 1 else 0 := by
  rw [holders, List.countP_cons]
  simp only [decide_eq_true_eq]
  rfl

theorem holders_insert (before after : List Flight) (f : Flight) (id : ItemId) :
    holders (before ++ f :: after) id =
      holders (before ++ after) id + if f.holds = some id then 1 else 0 := by
  rw [holders_append, holders_append, holders_cons, Nat.add_assoc]

theorem holders_begins (q : Request) (next : Start) (flights : List Flight) (id : ItemId) :
    holders ((next.flight? q).toList ++ flights) id =
      holders flights id + if next.holds q = some id then 1 else 0 := by
  cases next with
  | answer records => rfl
  | fill fill => exact holders_cons _ flights id
  | bypass held => cases held <;> exact holders_cons _ flights id

theorem Flight.Reads.holds {f g : Flight} (h : f.Reads g) : g.holds = f.holds := by
  cases h with
  | filling => rfl
  | passing q held => cases held <;> rfl

namespace Traffic

/-- What a request in flight reads below the history of its item comes in the order of time. -/
def Ordered (f : Flight) : Prop :=
  ∀ q fill rest, f = .filling q fill rest →
    rest.Yields (fun _ _ => True) fun fetched => InOrder fetched.records

/-- What holds of all traffic that steps lead to. -/
structure Sound (w : Traffic) : Prop where
  sorted : w.cache.Sound fun _ _ _ => True
  ordered : ∀ f ∈ w.flights, Ordered f
  pins : ∀ id, w.cache.pinsOf id = holders w.flights id
  prompt : w.cache.All fun _ item => item.Prompt

end Traffic

namespace Cache

theorem thins_true : Thins fun _ _ _ => True := ⟨fun _ _ => trivial, fun _ _ => trivial⟩

variable {c c' : Cache} {id : ItemId} {now : Int} {q : Request} {fill : Fill}

theorem Updates.pinsOf_of_ne {x : Option Item} (hup : Updates id x c c') {j : ItemId}
    (hj : j ≠ id) : c'.pinsOf j = c.pinsOf j := by
  rw [pinsOf, pinsOf]
  rcases hup.2 j hj with heq | ⟨hnone, item, hitem, hzero⟩
  · rw [heq]
  · rw [hnone, hitem, Option.elim_none, Option.elim_some, hzero]

/-- What becomes of the items that somebody holds. -/
def Lives (c c' : Cache) : Prop :=
  ∀ j (item : Item), c.items[j]? = some item → 0 < item.pins →
    item.Lives (c'.pinsOf j) c'.items[j]?

theorem lives_of_later {j : ItemId} {item item' : Item} (hj : c'.items[j]? = some item')
    (hheld : 0 < item'.pins) (hlater : item.Later (fun _ => False) item') :
    item.Lives (c'.pinsOf j) c'.items[j]? := by
  obtain ⟨others, hn⟩ : ∃ others, item'.pins = others + 1 := ⟨item'.pins - 1, by omega⟩
  rw [Holds.pinsOf_some hj, hj, hn]
  exact .held others item' hlater

theorem Holds.lives {more : Option ItemId} (h : Holds more (fun _ _ => False) c c') :
    Lives c c' := by
  intro j item hj hheld
  obtain ⟨item', hj', hlater⟩ := h.later j item hj hheld
  have hpins := h.pins j
  rw [pinsOf_some hj, pinsOf_some hj'] at hpins
  exact lives_of_later hj' (by omega) hlater

/-- One of those who hold an item leaves it. -/
structure Frees (id : ItemId) (c c' : Cache) : Prop where
  pins : ∀ j, c.pinsOf j = c'.pinsOf j + if some id = some j then 1 else 0
  lives : Lives c c'

theorem Frees.of_leaves {item item₁ : Item} {x : Option Item} (hid : c.items[id]? = some item)
    (hheld : 0 < item.pins) (hpins : item₁.pins = item.pins)
    (hlater : item.Later (fun _ => False) item₁)
    (hstate : item₁.state = .removePending ↔ item.state = .removePending)
    (hleaves : item₁.Leaves now x) (hup : Updates id x c c') : Frees id c c' := by
  have hx : c'.pinsOf id = x.elim 0 Item.pins := by rw [pinsOf, hup.1]
  refine ⟨fun j => ?_, fun j item' hj hheld' => ?_⟩
  · by_cases hji : j = id
    · subst hji
      rw [hx, if_pos rfl, Holds.pinsOf_some hid]
      cases x with
      | none =>
        cases hleaves with
        | removed hlast => rw [Option.elim_none]; omega
      | some item' =>
        have := hleaves.pins item' rfl
        rw [Option.elim_some]
        omega
    · rw [hup.pinsOf_of_ne hji, if_neg fun h => hji (Option.some.inj h).symm, Nat.add_zero]
  · by_cases hji : j = id
    · subst hji
      rw [hid] at hj
      cases hj
      rw [hx, hup.1]
      exact hleaves.lives hheld hpins hlater hstate
    · rcases hup.2 j hji with heq | ⟨-, item₂, hj₂, hzero⟩
      · exact lives_of_later (heq.trans hj) hheld' .refl
      · rw [hj] at hj₂
        cases hj₂
        omega

/-- A request that answers after its reading leaves its item. -/
theorem Frees.filled {item : Item} {fetched : Fetched} {records : List Record}
    (hid : c.items[q.item]? = some item) (hheld : 0 < item.pins) (hs : item.history.Sorted)
    (ho : InOrder fetched.records)
    (h : Finished now q fill item c (.ok fetched) (some records) c') : Frees q.item c c' := by
  cases h with
  | answers _ g x _ hstate hwrites htidy hrecords hanswers hup =>
    obtain ⟨n, hleaves⟩ := hanswers
    obtain ⟨all, covered, hmark⟩ := mark_eq fill.extent fetched { item with history := g }
    rw [hmark] at hleaves
    have hs' : ({ item with history := g, cachedAll := all, coveredFrom := covered } :
        Item).history.Sorted := sorted_of_below hs ho htidy List.suffix_rfl hrecords
    obtain ⟨active, daily, hour, all', hitem, -⟩ := Request.collect_item q now hs'
    rw [hitem] at hleaves
    refine of_leaves hid hheld (by rfl) ?_ (by rfl) hleaves hup
    refine .of_records rfl rfl rfl fun r hr => ?_
    change r ∈ g.records
    rw [hrecords]
    exact List.mem_append_right _ hr

/-- A request that went past the cache leaves the item that it held. -/
theorem Frees.bypassed (h : c.Sound fun _ _ _ => True) (hheld : 0 < c.pinsOf q.item)
    (result : Except StoreFailure (List Record)) :
    Frees q.item c (c.finishBypass now q true result) := by
  rcases finishBypass_spec now q true result (fun item hid => h.sorted _ item hid) with
    ⟨-, hfalse | hnone⟩ | ⟨-, item, x, hid, hleaves, hup⟩
  · cases hfalse
  · rw [pinsOf, hnone] at hheld
    exact absurd hheld (Nat.lt_irrefl 0)
  · rw [Holds.pinsOf_some hid] at hheld
    exact of_leaves hid hheld rfl .refl Iff.rfl hleaves hup

/-! ## Nothing is put off for nobody -/

/-- Nothing is put off for the items that nobody holds. -/
abbrev Prompt (c : Cache) : Prop := c.All fun _ item => item.Prompt

namespace Prompt

theorem started (h : c.Prompt) {next : Start} (hstarted : Started now q c next c') :
    c'.Prompt := by
  cases hstarted with
  | past _ _ hup => exact h.updates hup fun _ hx => by cases hx
  | refused item _ _ _ hup | fills item _ _ _ _ _ _ hup =>
    exact h.updates hup fun _ hx => by cases hx; exact fun hp => absurd hp (Nat.succ_ne_zero _)
  | answers item x _ _ _ _ _ hanswers hup => exact h.updates hup hanswers.prompt

theorem finished (h : c.Prompt) {item : Item} (hheld : 0 < item.pins)
    {result : Except StoreFailure Fetched} {answer : Option (List Record)}
    (hfinished : Finished now q fill item c result answer c') : c'.Prompt := by
  cases hfinished with
  | lost _ g _ _ _ hup =>
    refine h.updates hup fun _ hx => ?_
    cases hx
    exact fun hp => absurd hp (Nat.pos_iff_ne_zero.1 hheld)
  | answers fetched g x _ _ _ _ _ hanswers hup => exact h.updates hup hanswers.prompt

theorem finishBypass (h : c.Prompt) (hs : c.Sound fun _ _ _ => True) (held : Bool)
    (result : Except StoreFailure (List Record)) :
    (c.finishBypass now q held result).Prompt := by
  rcases finishBypass_spec now q held result (fun item hid => hs.sorted _ item hid)
    with ⟨hitems, -⟩ | ⟨-, item, x, -, hleaves, hup⟩
  · exact h.congr hitems
  · exact h.updates hup hleaves.prompt

theorem ingestOne (h : c.Prompt) (hs : c.Sound fun _ _ _ => True) (expireBefore : Int)
    (w : ItemRecord) : (Cache.ingestOne now expireBefore c w).Prompt := by
  rcases ingestOne_spec now expireBefore (fun item hid => hs.sorted w.item item hid) with
    ⟨-, hitems⟩ | ⟨item, item', x, -, -, hleaves, hup⟩
  · exact h.congr hitems
  · exact h.updates hup hleaves.prompt

theorem ingest (h : c.Prompt) (hs : c.Sound fun _ _ _ => True) (now : Int)
    (writes : List ItemRecord) : (c.ingest now writes).Prompt := by
  rw [Cache.ingest]
  generalize c.expireBefore now = expireBefore
  induction writes generalizing c with
  | nil => exact h
  | cons w writes ih => exact ih (h.ingestOne hs expireBefore w) (hs.ingestOne_sorted expireBefore w)

theorem requestRemoval (h : c.Prompt) (id : ItemId) : (c.requestRemoval id).Prompt := by
  rcases requestRemoval_spec c id with ⟨-, hitems⟩ | ⟨item, -, hget⟩
  · exact h.congr hitems
  · refine h.updates (Updates.of_getElem? hget) fun item' hx => ?_
    split at hx
    · next hheld =>
      cases hx
      exact fun hp => absurd hp (Nat.pos_iff_ne_zero.1 hheld)
    · cases hx

end Prompt

end Cache

/-! ## Steps -/

theorem Reading.Ends.of_yields {α : Type} {r : Reading α} {A : StoreRead → List Record → Prop}
    {P : α → Prop} {a : α} (h : r.Ends (.ok a)) (hr : r.Yields A P) : P a := by
  cases h with
  | done => exact hr

theorem Traffic.Ordered.begun {now : Int} {q : Request} {c c' : Cache} {next : Start}
    (hstarted : Cache.Started now q c next c') :
    ∀ f ∈ (next.flight? q).toList, Traffic.Ordered f := by
  intro f hf q' fill rest heq
  subst heq
  cases next with
  | answer => cases hf
  | bypass => simp [Start.flight?] at hf
  | fill fill' =>
    simp only [Start.flight?, Option.toList_some, List.mem_singleton, Flight.filling.injEq] at hf
    obtain ⟨rfl, rfl, rfl⟩ := hf
    exact (hstarted.fetches (G := fun _ => True) fun _ _ _ _ _ _ _ => trivial).mono
      (fun _ _ h => h) fun _ h => h.1

theorem Traffic.Ordered.reads {f g : Flight} (h : Traffic.Ordered f) (hreads : f.Reads g) :
    Traffic.Ordered g := by
  intro q fill rest heq
  cases hreads with
  | filling q₁ fill₁ question next records =>
    cases heq
    exact h _ _ _ rfl records trivial
  | passing => cases heq

namespace Traffic

variable {w w' : Traffic}

/-- Where a request in flight comes from. -/
inductive Flies (w w' : Traffic) (g : Flight) : Prop
  | stays (hbefore : g ∈ w.flights) : Flies w w' g
  | reads (f : Flight) (hbefore : f ∈ w.flights) (hreads : f.Reads g) : Flies w w' g
  | begun (q : Request) (next : Start)
      (hstart : w.cache.start w.service.now q = (next, w'.cache))
      (hflight : next.flight? q = some g) : Flies w w' g
  | passing (q : Request) (held : Bool) (rest : Reading (List Record))
      (heq : g = .passing q held rest) : Flies w w' g

/-- A step begins a request, or goes on with one that was in flight. -/
theorem Step.flies (hstep : Step w w') : ∀ g ∈ w'.flights, Flies w w' g := by
  intro g hg
  cases hstep with
  | elsewhere | ingests | removes => exact .stays hg
  | begins s flights q next c hstart =>
    rcases List.mem_append.1 hg with hg | hg
    · exact .begun q next hstart (Option.mem_toList.1 hg)
    · exact .stays hg
  | reads s before after f g' hreads =>
    rcases List.mem_append.1 hg with hg | hg
    · exact .stays (List.mem_append_left _ hg)
    · rcases List.mem_cons.1 hg with rfl | hg
      · exact .reads f (List.mem_append_right _ List.mem_cons_self) hreads
      · exact .stays (List.mem_append_right _ (List.mem_cons_of_mem _ hg))
  | fills s before after | passes s before after =>
    refine .stays (List.mem_append.2 ?_)
    exact (List.mem_append.1 hg).imp_right (List.mem_cons_of_mem _)
  | loses s before after q =>
    rcases List.mem_append.1 hg with hg | hg
    · exact .stays (List.mem_append_left _ hg)
    · rcases List.mem_cons.1 hg with rfl | hg
      · exact .passing q true q.direct rfl
      · exact .stays (List.mem_append_right _ (List.mem_cons_of_mem _ hg))

end Traffic

namespace Traffic.Sound

variable {w w' : Traffic} {config : Config}

/-- The item that a request reads for is in the cache, and held. -/
theorem filling (hw : w.Sound) {q : Request} {fill : Fill} {rest : Reading Fetched}
    (hf : .filling q fill rest ∈ w.flights) :
    ∃ item, w.cache.items[q.item]? = some item ∧ 0 < item.pins := by
  have hholders : 0 < holders w.flights q.item :=
    List.countP_pos_iff.2 ⟨_, hf, decide_eq_true rfl⟩
  rw [← hw.pins, Cache.pinsOf] at hholders
  cases hid : w.cache.items[q.item]? with
  | none =>
    rw [hid] at hholders
    exact absurd hholders (Nat.lt_irrefl 0)
  | some item =>
    rw [hid] at hholders
    exact ⟨item, rfl, hholders⟩

theorem finished (hw : w.Sound) {q : Request} {fill : Fill} {rest : Reading Fetched}
    (hf : .filling q fill rest ∈ w.flights) {result : Except StoreFailure Fetched}
    (hends : rest.Ends result) {answer : Option (List Record)} {now : Int} {c : Cache}
    (h : w.cache.finishFill now q fill result = (answer, c)) :
    ∃ item, w.cache.items[q.item]? = some item ∧ 0 < item.pins ∧
      Cache.Finished now q fill item w.cache result answer c ∧
      ∀ fetched, result = .ok fetched → InOrder fetched.records := by
  obtain ⟨item, hid, hheld⟩ := hw.filling hf
  have ho : ∀ fetched, result = .ok fetched → InOrder fetched.records := by
    rintro fetched rfl
    exact hends.of_yields (hw.ordered _ hf _ _ _ rfl)
  exact ⟨item, hid, hheld, Cache.finishFill_spec hid (hw.sorted.sorted _ item hid) ho h, ho⟩

/-- A step lets one more request hold an item, or one less, or leaves the holders alone. -/
theorem turns (hw : w.Sound) (hstep : Step w w') :
    (∃ more, Cache.Holds more (fun _ _ => False) w.cache w'.cache ∧
      ∀ id, holders w'.flights id = holders w.flights id + if more = some id then 1 else 0) ∨
    ∃ id, Cache.Frees id w.cache w'.cache ∧
      ∀ j, holders w.flights j = holders w'.flights j + if some id = some j then 1 else 0 := by
  cases hstep with
  | elsewhere s t flights hitems => exact Or.inl ⟨none, .of_items hitems, fun _ => rfl⟩
  | ingests s flights writes =>
    exact Or.inl ⟨none, (Cache.Holds.ingest hw.sorted s.now writes).mono fun _ _ h => h.elim,
      fun _ => rfl⟩
  | removes s flights id => exact Or.inl ⟨none, .requestRemoval s.cache id, fun _ => rfl⟩
  | begins s flights q next c hstart =>
    exact Or.inl ⟨next.holds q,
      Cache.Holds.started hw.sorted (Cache.start_spec hw.sorted.sorted hstart),
      holders_begins q next flights⟩
  | reads s before after f g hreads =>
    refine Or.inl ⟨none, .of_items rfl, fun id => ?_⟩
    simp [holders_insert, hreads.holds]
  | fills s before after q fill rest result hends records c hfinish =>
    right
    obtain ⟨item, hid, hheld, hfinished, ho⟩ :=
      hw.finished (List.mem_append_right _ List.mem_cons_self) hends hfinish
    cases hends with
    | fails => cases hfinished
    | done fetched =>
      exact ⟨q.item, .filled hid hheld (hw.sorted.sorted _ item hid) (ho _ rfl) hfinished,
        fun j => holders_insert before after _ j⟩
  | loses s before after q fill rest result hends c hfinish =>
    left
    obtain ⟨item, hid, hheld, hfinished, ho⟩ :=
      hw.finished (List.mem_append_right _ List.mem_cons_self) hends hfinish
    refine ⟨none, .lost hid hfinished, fun id => ?_⟩
    simp [holders_insert, Flight.holds]
  | passes s before after q held rest result hends =>
    cases held with
    | false =>
      left
      refine ⟨none, ?_, fun id => ?_⟩
      · rcases Cache.finishBypass_spec s.now q false result (c := s.cache)
          (fun item hid => hw.sorted.sorted _ item hid) with ⟨hitems, -⟩ | ⟨hfalse, -⟩
        · exact .of_items hitems
        · cases hfalse
      · simp [holders_insert, Flight.holds]
    | true =>
      right
      have hheld : 0 < s.cache.pinsOf q.item := by
        have hpins := hw.pins q.item
        rw [holders_insert, Flight.holds, if_pos rfl] at hpins
        change s.cache.pinsOf q.item = _ at hpins
        omega
      exact ⟨q.item, .bypassed hw.sorted hheld result, fun j => holders_insert before after _ j⟩

theorem sorted_step (hw : w.Sound) (hstep : Step w w') : w'.cache.Sound fun _ _ _ => True := by
  cases hstep with
  | elsewhere s t flights hitems => exact hw.sorted.congr hitems
  | ingests s flights writes => exact hw.sorted.ingest Cache.thins_true s.now fun _ _ _ _ => trivial
  | removes s flights id => exact hw.sorted.requestRemoval id
  | begins s flights q next c hstart =>
    exact hw.sorted.started Cache.thins_true (Cache.start_spec hw.sorted.sorted hstart)
  | reads => exact hw.sorted
  | fills s before after q fill rest result hends records c hfinish
  | loses s before after q fill rest result hends c hfinish =>
    obtain ⟨item, hid, -, hfinished, ho⟩ :=
      hw.finished (List.mem_append_right _ List.mem_cons_self) hends hfinish
    exact hw.sorted.finished Cache.thins_true hid (fun fetched hok => ⟨ho fetched hok, trivial⟩)
      hfinished
  | passes s before after q held rest result =>
    exact hw.sorted.finishBypass Cache.thins_true held result

theorem prompt_step (hw : w.Sound) (hstep : Step w w') : w'.cache.Prompt := by
  cases hstep with
  | elsewhere s t flights hitems => exact hw.prompt.congr hitems
  | ingests s flights writes => exact Cache.Prompt.ingest hw.prompt hw.sorted s.now writes
  | removes s flights id => exact Cache.Prompt.requestRemoval hw.prompt id
  | begins s flights q next c hstart =>
    exact Cache.Prompt.started hw.prompt (Cache.start_spec hw.sorted.sorted hstart)
  | reads => exact hw.prompt
  | fills s before after q fill rest result hends records c hfinish
  | loses s before after q fill rest result hends c hfinish =>
    obtain ⟨item, hid, hheld, hfinished, -⟩ :=
      hw.finished (List.mem_append_right _ List.mem_cons_self) hends hfinish
    exact Cache.Prompt.finished hw.prompt hheld hfinished
  | passes s before after q held rest result =>
    exact Cache.Prompt.finishBypass hw.prompt hw.sorted held result

theorem ordered_step (hw : w.Sound) (hstep : Step w w') : ∀ f ∈ w'.flights, Ordered f := by
  intro g hg
  cases hstep.flies g hg with
  | stays hbefore => exact hw.ordered g hbefore
  | reads f hbefore hreads => exact (hw.ordered f hbefore).reads hreads
  | begun q next hstart hflight =>
    exact Ordered.begun (Cache.start_spec hw.sorted.sorted hstart) g (by simp [hflight])
  | passing q held rest heq => exact fun _ _ _ h => by rw [heq] at h; cases h

theorem step (hw : w.Sound) (hstep : Step w w') : w'.Sound where
  sorted := hw.sorted_step hstep
  ordered := hw.ordered_step hstep
  prompt := hw.prompt_step hstep
  pins id := by
    have hpins := hw.pins id
    rcases hw.turns hstep with ⟨more, hholds, hflights⟩ | ⟨j, hfrees, hflights⟩
    · have hturn := hholds.pins id
      have hturn' := hflights id
      omega
    · have hturn := hfrees.pins id
      have hturn' := hflights id
      omega

/-- **An item that somebody holds** stays in the cache, or its last holder left it. -/
theorem lives (hw : w.Sound) (hstep : Step w w') : Cache.Lives w.cache w'.cache := by
  rcases hw.turns hstep with ⟨more, hholds, -⟩ | ⟨j, hfrees, -⟩
  · exact hholds.lives
  · exact hfrees.lives

theorem new {now : Int} {s : Service} (h : Service.new config now = .ok s) :
    Sound ⟨s, []⟩ := by
  have hnone : ∀ id : ItemId, s.cache.items[id]? = none := fun id => by
    rw [Service.eq_of_new h]
    exact Std.ExtTreeMap.getElem?_empty
  have hall : ∀ P : ItemId → Item → Prop, s.cache.All P := fun P id item hid => by
    rw [hnone] at hid
    cases hid
  refine ⟨hall _, fun f hf => absurd hf List.not_mem_nil, fun id => ?_, hall _⟩
  rw [Cache.pinsOf, hnone]
  rfl

end Traffic.Sound

theorem Traffic.Possible.sound {config : Config} {w : Traffic} (hw : Possible config w) :
    w.Sound := by
  induction hw with
  | new now s hnew => exact .new hnew
  | step w w' _ hstep ih => exact ih.step hstep

/-! ## Requests for a held item -/

namespace Cache

variable {c c₁ : Cache} {now : Int} {q : Request} {item : Item}

/-- No item is put in the place of one that is there. -/
theorem ensure_of_some (hid : c.items[q.item]? = some item) : c.ensure now q = (true, c) := by
  rw [ensure, if_pos]
  rw [Std.ExtTreeMap.contains_eq_isSome_getElem?, hid]
  rfl

theorem servable_ne_itemMissing (h : c.ensure now q = (true, c₁)) (id : ItemId) :
    (c₁.pin q.item).servable q ≠ .error (.itemMissing id) := by
  rcases ensure_spec h with ⟨hfalse, -⟩ | ⟨-, item, -, hup⟩
  · cases hfalse
  have hid := (pin_spec hup).1
  rw [servable, hid]
  simp only []
  split
  · simp
  · split <;> simp

theorem extend_ne_itemMissing {fill : Fill} {fetched : Fetched} (hid : c.items[q.item]? = some item)
    (hs : item.history.Sorted) (ho : InOrder fetched.records) (id : ItemId) :
    (c.extend now q fill fetched).1 ≠ .error (.itemMissing id) := by
  rw [extend, hid]
  simp only []
  split
  · simp
  · generalize hprepend : (c.checkOut q.item).prepend now q.item fetched.records item = prepended
    obtain ⟨result, item', c'⟩ := prepended
    obtain ⟨g, taken, -, -, -, -, -, ⟨rfl, -⟩ | ⟨n, rfl⟩⟩ := prepend_spec hs.tidy ho hprepend <;> simp

/-- An item that is to be removed answers no request that begins. -/
theorem start_of_pending (hs : c.Sound fun _ _ _ => True) (hid : c.items[q.item]? = some item)
    (hpending : item.state = .removePending) : (c.start now q).1 = .bypass true := by
  generalize hstart : c.start now q = started
  obtain ⟨next, c'⟩ := started
  have hstarted := start_spec hs.sorted hstart
  clear hstart
  cases hstarted with
  | past _ hnone => rw [hid] at hnone; cases hnone
  | refused => rfl
  | fills item' _ _ hfinds hstate | answers item' _ _ hfinds hstate =>
    rw [hfinds.eq_of_some hid] at hstate
    exact absurd hpending hstate

end Cache

/-- **The life of an item.** -/
theorem Traffic.life_of_possible {config : Config} {w : Traffic} (hw : Possible config w) :
    -- an item counts the requests in flight that hold it, and a write as well while it works on it
    (∀ id, w.cache.pinsOf id = holders w.flights id) ∧
    (∀ (id : ItemId) (item : Item), w.cache.items[id]? = some item →
      (w.cache.pin id).items[id]? = some { item with pins := holders w.flights id + 1 }) ∧
    -- nothing but its last holder takes it out of the cache
    (∀ w', Step w w' → ∀ (id : ItemId) (item : Item), w.cache.items[id]? = some item → 0 < item.pins →
      item.Lives (holders w'.flights id) w'.cache.items[id]?) ∧
    -- no other item takes its place
    (∀ now q, 0 < holders w.flights q.item → w.cache.ensure now q = (true, w.cache)) ∧
    -- no request misses its item
    (∀ now q c id, w.cache.ensure now q = (true, c) →
      (c.pin q.item).servable q ≠ .error (.itemMissing id)) ∧
    (∀ now q fill rest fetched id, .filling q fill rest ∈ w.flights → rest.Ends (.ok fetched) →
      (w.cache.extend now q fill fetched).1 ≠ .error (.itemMissing id)) ∧
    -- an item that is to be removed answers nothing
    (∀ now q (item : Item), w.cache.items[q.item]? = some item → item.state = .removePending →
      (w.cache.start now q).1 = .bypass true ∧
      ∀ fill rest result, .filling q fill rest ∈ w.flights → rest.Ends result →
        (w.cache.finishFill now q fill result).1 = none) ∧
    -- without requests in flight nothing is held and nothing is put off
    (w.flights = [] → ∀ (id : ItemId) (item : Item), w.cache.items[id]? = some item →
      item.state = .active ∧ item.pins = 0) := by
  have hsound := hw.sound
  have hcount : ∀ (id : ItemId) (item : Item), w.cache.items[id]? = some item → item.pins = holders w.flights id :=
    fun id item hid => by rw [← hsound.pins, Cache.Holds.pinsOf_some hid]
  refine ⟨hsound.pins, fun id item hid => ?_, fun w' hstep id item hid hheld => ?_,
    fun now q hheld => ?_, fun now q c id h => Cache.servable_ne_itemMissing h id,
    fun now q fill rest fetched id hf hends => ?_, fun now q item hid hpending => ⟨?_, ?_⟩,
    fun hnone id item hid => ?_⟩
  · rw [Cache.getElem?_pin, if_pos rfl, hid, Option.map_some, hcount id item hid]
  · rw [← (hsound.step hstep).pins]
    exact hsound.lives hstep id item hid hheld
  · rw [← hsound.pins, Cache.pinsOf] at hheld
    cases hid : w.cache.items[q.item]? with
    | none => rw [hid] at hheld; exact absurd hheld (Nat.lt_irrefl 0)
    | some item => exact Cache.ensure_of_some hid
  · obtain ⟨item, hid, -⟩ := hsound.filling hf
    exact Cache.extend_ne_itemMissing hid (hsound.sorted.sorted _ item hid)
      (hends.of_yields (hsound.ordered _ hf _ _ _ rfl)) id
  · exact Cache.start_of_pending hsound.sorted hid hpending
  · intro fill rest result hf hends
    generalize hfinish : w.cache.finishFill now q fill result = finished
    obtain ⟨answer, c⟩ := finished
    obtain ⟨item', hid', -, hfinished, -⟩ := hsound.finished hf hends hfinish
    rw [hid] at hid'
    cases hid'
    clear hfinish
    cases hfinished with
    | lost => rfl
    | answers _ _ _ _ hstate => exact absurd hpending hstate
  · have hnobody : item.pins = 0 := by
      rw [hcount id item hid, hnone]
      rfl
    exact ⟨hsound.prompt id item hid hnobody, hnobody⟩

/-- A request for the last minute of item 7. -/
def lastMinuteOf7 : Request := ⟨7, .uint, 60, 0, ⟨1000, 0⟩⟩

/-- Item 7 is to be removed while a request reads for it, and a second request goes past the cache. -/
theorem Traffic.life_removed_in_flight : ∃ (w : Traffic) (item : Item), Possible {} w ∧
    holders w.flights 7 = 1 ∧ w.cache.items[7]? = some item ∧ item.pins = 1 ∧
    item.state = .removePending ∧ (w.cache.start 1000 lastMinuteOf7).1 = .bypass true := by
  have hitem : (((newService.cache.start 1000 lastMinuteOf7).2.requestRemoval 7).items[7]?).map
      (fun item => (item.state, item.pins)) = some (.removePending, 1) := by cbv
  generalize hstart : newService.cache.start 1000 lastMinuteOf7 = started at hitem
  obtain ⟨next, c⟩ := started
  obtain ⟨item, hid, hitem⟩ := Option.map_eq_some_iff.1 hitem
  obtain ⟨hstate, hpins⟩ := Prod.mk.inj hitem
  have h₀ : Possible {} ⟨newService, []⟩ := .new 1000 newService new_newService
  have h₁ := h₀.step _ _ (.begins newService [] lastMinuteOf7 next c hstart)
  have h₂ := h₁.step _ _ (.removes _ _ 7)
  obtain ⟨hcount, -, -, -, -, -, hpending, -⟩ := life_of_possible h₂
  refine ⟨_, item, h₂, ?_, hid, hpins, hstate, (hpending 1000 lastMinuteOf7 item hid hstate).1⟩
  rw [← hcount, ← hpins]
  exact Cache.Holds.pinsOf_some hid

end HistoryCache
