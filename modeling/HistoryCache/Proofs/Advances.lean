import HistoryCache.Proofs.Faithful

/-!
# Services that go on

Operations lead to a service whose store has at least what it had, and that is held by those who held
it (`Service.Advances`).  As long as nobody writes a record twice, the cached histories stay faithful
to the store (`Service.Faithful`), on whatever handle is written and whatever is put into the store
past the cache (`follows_faithful`).
-/

namespace HistoryCache

/-- What one store has that an earlier one had not.  Nothing is new if both have the same. -/
structure News (N : Store → Store → ItemId → Record → Prop) : Prop where
  same : ∀ {a b : Store}, b.series = a.series → ∀ id r, ¬ N a b id r
  trans : ∀ {a b c : Store} {id : ItemId} {r : Record}, N a c id r → N a b id r ∨ N b c id r

/-- Nothing counts as new. -/
def noNews : Store → Store → ItemId → Record → Prop := fun _ _ _ _ => False

theorem news_none : News noNews where
  same _ _ _ h := h
  trans h := h.elim

/-- What was written since counts as new. -/
def written : Store → Store → ItemId → Record → Prop := fun a b id r => b.Has id r ∧ ¬ a.Has id r

theorem news_written : News written where
  same h id r hr := hr.2 (by rw [Store.Has, ← Store.recordsOf_congr h]; exact hr.1)
  trans {a b c id r} h := by
    by_cases hb : b.Has id r
    · exact Or.inl ⟨hb, h.2⟩
    · exact Or.inr ⟨h.1, hb⟩

namespace Service

/-- The store grows, and those who hold an item find there what they had and what is new. -/
structure Advances (N : Store → Store → ItemId → Record → Prop) (s t : Service) : Prop where
  grows : s.store.Grows t.store
  holds : Cache.Holds none (N s.store t.store) s.cache t.cache

/-- The cached histories are faithful to a store as it is used. -/
structure Faithful (s : Service) : Prop where
  regular : s.store.Regular
  sound : s.cache.Sound (faithful s.store)

variable {N : Store → Store → ItemId → Record → Prop} {s t u : Service}

namespace Advances

theorem of_cache (hN : News N) {c : Cache} (h : Cache.Holds none (fun _ _ => False) s.cache c) :
    s.Advances N { s with cache := c } where
  grows := .of_series rfl
  holds := h.mono fun id r hr => hN.same rfl id r hr

theorem trans (hN : News N) (h : s.Advances N t) (k : t.Advances N u) : s.Advances N u where
  grows := h.grows.trans k.grows
  holds := (h.holds.trans k.holds).mono fun _ _ hr => hN.trans hr

/-- Those who hold an item find there what they had. -/
theorem holds_none (h : s.Advances N t) :
    Cache.Holds none (fun _ _ => False) s.cache t.cache :=
  h.holds.mono fun _ _ hr => hr.elim

/-- The counts of those who hold an item are the same before and after. -/
theorem pinsOf (h : s.Advances N t) (id : ItemId) : t.cache.pinsOf id = s.cache.pinsOf id := by
  rw [h.holds.pins, if_neg (by simp), Nat.add_zero]

end Advances

/-- What looks at the items and the contents of the store only can be relied on. -/
theorem rely_advances (hN : News N) {I : Service → Prop}
    (hI : ∀ {s t : Service}, t.cache.items = s.cache.items → t.store.series = s.store.series →
      t.store.arrange = s.store.arrange → I s → I t) : Rely Plain I (Advances N) where
  refl _ := .of_cache hN (.of_items rfl)
  trans h k := h.trans hN k
  same hitems hseries harrange hs := ⟨hI hitems hseries harrange hs, .of_series hseries,
    (Cache.Holds.of_items hitems).mono fun id r hr => hN.same hseries id r hr⟩
  answers {question s answer t} := by
    rintro ⟨-, rfl⟩ hs
    have hseries := Store.series_read s.store question
    refine ⟨?_, .of_series hseries, ?_⟩
    · exact hI (s := s) rfl hseries (Store.arrange_read s.store question) hs
    · exact (Cache.Holds.of_items rfl).mono fun id r hr => hN.same hseries id r hr

namespace Faithful

theorem congr (h : s.Faithful) (hitems : t.cache.items = s.cache.items)
    (hseries : t.store.series = s.store.series) (harrange : t.store.arrange = s.store.arrange) :
    t.Faithful where
  regular := h.regular.congr hseries harrange
  sound := (h.sound.mono (faithful_mono (.of_series hseries))).congr hitems

/-- A request leaves a faithful service faithful. -/
theorem got (hN : News N) {I : Service → Prop} (hI : ∀ {s}, I s → s.Faithful) {q : Request}
    {result : Except StoreFailure (List Record)} (hs : I s)
    (h : Got Plain I (Advances N) q s result t) : t.Faithful ∧ s.Advances N t := by
  have hsorted : ∀ s, I s → s.cache.Sound fun _ _ _ => True := fun s hs =>
    (hI hs).sound.mono fun _ => trivial
  have hextends := extends_faithful (fun s hs => (hI hs).regular) (fun s hs => (hI hs).sound)
    (fun s t h => h.grows) (fun s t (h : s.Advances N t) => h.holds_none) q s
  have hsound := h.sound hextends thins_faithful (fun s hs => (hI hs).sound) hs
  have hholds := h.holds (N := N) hsorted (fun s t h => h.holds) hN.trans
    (fun {_ id r} => hN.same rfl id r) hs
  cases h with
  | answered => exact ⟨⟨(hI hs).regular, hsound⟩, .of_series rfl, hholds⟩
  | past _ _ _ t _ hread => exact ⟨⟨(hI hread.after).regular, hsound⟩, hread.leads.grows, hholds⟩
  | filled _ _ _ t _ _ _ _ hread =>
    exact ⟨⟨(hI hread.after).regular, hsound⟩, hread.leads.grows, hholds⟩
  | lost _ _ _ t _ _ _ u _ hread _ _ hread' =>
    have hgrows : t.store.Grows u.store := hread'.leads.grows
    exact ⟨⟨(hI hread'.after).regular, hsound⟩, hread.leads.grows.trans hgrows, hholds⟩

theorem started (h : s.Faithful) {q : Request} {next : Start} {c : Cache}
    (hstarted : Cache.Started s.now q s.cache next c) : ({ s with cache := c } : Service).Faithful where
  regular := h.regular
  sound := h.sound.started (thins_faithful _) hstarted

/-- A request goes on after a reading below the history of its item. -/
theorem finished {I : Service → Prop} (hI : ∀ {s}, I s → s.Faithful) {q : Request} {fill : Fill}
    {c c' : Cache} {fetched : Except StoreFailure Fetched} {item : Item}
    {answer : Option (List Record)} (hstarted : Cache.Started s.now q s.cache (.fill fill) c)
    (hread : fill.reading.Performed Plain I (Advances N) { s with cache := c } fetched t)
    (hitem : t.cache.items[q.item]? = some item)
    (hfinished : Cache.Finished t.now q fill item t.cache fetched answer c') :
    ({ t with cache := c' } : Service).Faithful := by
  have hextends := extends_faithful (fun s hs => (hI hs).regular) (fun s hs => (hI hs).sound)
    (fun s t h => h.grows) (fun s t (h : s.Advances N t) => h.holds_none) q s
  have hsound := hextends.finished thins_faithful (fun s hs => (hI hs).sound) hstarted hread hitem
    hfinished
  exact ⟨(hI hread.after).regular, hsound⟩

/-- Fresh records may be written; what is new has to reach the cache. -/
theorem add (h : s.Faithful) (hN : News N) (enabled : Bool) {writes : List ItemRecord}
    (hw : s.store.AllFresh writes) (hnew : ∀ id r, N s.store (writes.foldl Store.put s.store) id r →
      enabled = true ∧ ⟨id, r⟩ ∈ writes) :
    (s.add enabled writes).2.Faithful ∧ s.Advances N (s.add enabled writes).2 := by
  have hregular := hw.regular_puts h.regular
  have hgrows := Store.Grows.puts hw h.regular
  rw [Service.add, Store.append]
  by_cases hfail : s.store.writesFail = true
  · rw [if_pos hfail]
    exact ⟨h, .of_cache hN (.of_items rfl)⟩
  · rw [if_neg hfail]
    cases enabled with
    | true =>
      refine ⟨⟨hregular, faithful_ingest h.regular hw h.sound s.now⟩, hgrows, ?_⟩
      exact (Cache.Holds.ingest (h.sound.mono fun _ => trivial) s.now writes).mono
        fun id r hr => (hnew id r hr).2
    | false =>
      refine ⟨⟨hregular, h.sound.mono (faithful_mono hgrows)⟩, hgrows, ?_⟩
      exact (Cache.Holds.of_items rfl).mono fun id r hr => by cases (hnew id r hr).1

theorem requestRemovals (h : s.Faithful) (items : List ItemId) :
    ({ s with cache := items.foldl Cache.requestRemoval s.cache } : Service).Faithful where
  regular := h.regular
  sound := h.sound.requestRemovals items

theorem reset (h : s.Faithful) : ({ s with cache := s.cache.reset } : Service).Faithful where
  regular := h.regular
  sound := h.sound.reset

end Faithful

end Service

/-! ## Runs -/

/-- The plain backend lets others do nothing. -/
theorem admits_plain {σ : Type} : Admits Plain Eq (Service.plain : Backend σ) := by
  intro question s x
  exact ⟨s, _, rfl, ⟨rfl, rfl⟩, rfl⟩

theorem does_step {permits : Service → Operation → Prop} {s : Service} {op : Operation}
    (hop : permits s op) : Does Plain permits Eq s (s.step op).2 :=
  ⟨Unit, Service.plain, Service.plain, op, (), admits_plain, admits_plain, hop, rfl⟩

/-- A new service has no items, and so nobody holds one. -/
theorem Service.empty_of_new {config : Config} {now : Int} {s : Service}
    (hnew : Service.new config now = .ok s) :
    (∀ id : ItemId, s.cache.items[id]? = none) ∧ ∀ id, s.cache.pinsOf id = 0 := by
  have hnone : ∀ id : ItemId, s.cache.items[id]? = none := fun id => by
    rw [Service.eq_of_new hnew, Cache.new]
    exact Std.ExtTreeMap.getElem?_empty
  exact ⟨hnone, fun id => by rw [Cache.pinsOf, hnone, Option.elim_none]⟩

/-- Only records of which the store has none of the same kind and time may be written, on whatever
handle. -/
def Rules.fresh : Rules where
  call s _ c := ∀ writes, c = .add writes → s.store.AllFresh writes
  outside s o := ∀ item records, o = .insert item records →
    s.store.AllFresh (records.map (ItemRecord.mk item))

/-- **Operations** leave the cached histories faithful. -/
theorem follows_faithful :
    Follows Plain Rules.fresh Service.Faithful (Service.Advances noNews) where
  toRely := Service.rely_advances news_none fun hitems hseries harrange h =>
    h.congr hitems hseries harrange
  gets {σ K b c q s x} hb _ _ hs hx := by
    obtain ⟨hgot, hK⟩ := getThrough_got (Service.rely_advances news_none fun hitems hseries harrange
        h => h.congr hitems hseries harrange)
      (fun s hs => hs.sound.mono fun _ => trivial) (fun s t h => h.holds_none) hb hs hx
      (fun next c _ hstarted => hs.started hstarted)
      (fun fill c fetched t item c' hstarted hread hitem hfinished =>
        Service.Faithful.finished (fun hs => hs) hstarted hread hitem hfinished) rfl
    obtain ⟨hI, hR⟩ := Service.Faithful.got news_none (fun hs => hs) hs hgot
    exact ⟨hI, hR, hK⟩
  adds {s enabled writes} hc hs := hs.add news_none enabled (hc writes rfl) fun _ _ hr => hr.elim
  removes items hs := ⟨hs.requestRemovals items, .of_cache news_none (.requestRemovals items _)⟩
  resets hs := ⟨hs.reset, .of_cache news_none (.reset _)⟩
  inserts {s item records} ho hs := by
    have hw := ho item records rfl
    have hinsert : s.store.insert item records =
        (records.map (ItemRecord.mk item)).foldl Store.put s.store := by
      rw [Store.insert, List.foldl_map]
    rw [hinsert]
    have hgrows := Store.Grows.puts hw hs.regular
    exact ⟨⟨hw.regular_puts hs.regular, hs.sound.mono (faithful_mono hgrows)⟩, hgrows, .of_items rfl⟩

/-- **A service at rest** is faithful and nobody holds an item. -/
theorem Service.faithful_of_meanwhile {config : Config} {now : Int} {s₀ s : Service} {store : Store}
    {depth : Nat} (hnew : Service.new config now = .ok s₀) (hstore : store.Regular)
    (hs : Meanwhile Plain Rules.fresh.Permits depth { s₀ with store := store } s) :
    s.Faithful ∧ ∀ id, s.cache.pinsOf id = 0 := by
  obtain ⟨hempty, hrest⟩ := Service.empty_of_new hnew
  have hinitial : ({ s₀ with store := store } : Service).Faithful :=
    ⟨hstore, fun id item hid => by cases (hempty id).symm.trans hid⟩
  obtain ⟨hfaithful, hadvances⟩ := follows_faithful.preserved.meanwhile depth _ s hs hinitial
  exact ⟨hfaithful, fun id => (hadvances.pinsOf id).trans (hrest id)⟩

end HistoryCache
