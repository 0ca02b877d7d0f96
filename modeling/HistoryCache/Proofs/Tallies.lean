import HistoryCache.Proofs.Frame
import HistoryCache.Proofs.Ledger
import HistoryCache.Proofs.Traffic

/-!
# What memory costs the other items

One gauge shows the number of items, the other whether the cache is in low-memory mode.  Most of what is
done to a cache changes neither which items are cached nor what the gauges show.  Taking memory may cost
other items their places, and then the gauge shows how many are left: those in the map, so not the item
that the memory is for while it is out of the map.

* `Cache.Still`: what changes nothing of this.
* `Cache.Tallies`: what taking memory does.
* `Cache.Tallies.fill`, `Cache.Tallies.offer`: work on an item is of this kind, for all that it does to
  the others.
-/

namespace HistoryCache.Cache

/-- The number of items that the gauge shows. -/
def gauge (c : Cache) : Nat := c.telemetry.metrics.items

/-- The gauge of the mode shows the mode. -/
def ShowsMode (c : Cache) : Prop := c.telemetry.metrics.lowMemory = true ↔ c.mode = .lowMemory

/-! ## Which items are cached -/

section

variable {c c' : Cache} {id : ItemId} {item : Item}

theorem ids_congr (h : ∀ id, id ∈ c'.ids ↔ id ∈ c.ids) : c'.ids = c.ids := by
  have hordered : ∀ c : Cache, c.ids.Pairwise (· < ·) := fun c =>
    (Std.ExtTreeMap.ordered_keys (t := c.items)).imp Nat.compare_eq_lt.1
  have hnodup : ∀ c : Cache, c.ids.Nodup := fun c => Std.ExtTreeMap.nodup_keys
  refine List.Perm.eq_of_pairwise (fun i j _ _ hij hji => ?_) (hordered c') (hordered c)
    ((List.perm_ext_iff_of_nodup (hnodup c') (hnodup c)).2 h)
  exact absurd hij (Nat.lt_asymm hji)

theorem length_ids (c : Cache) : c.ids.length = c.items.size := Std.ExtTreeMap.length_keys

theorem ids_of_items (h : c'.items = c.items) : c'.ids = c.ids := by rw [ids, ids, h]

theorem mem_ids_checkIn {j : ItemId} : j ∈ (c.checkIn id item).ids ↔ j = id ∨ j ∈ c.ids := by
  rw [mem_ids, mem_ids, getElem?_checkIn]
  by_cases hj : id = j
  · simp [hj]
  · simp [hj, Ne.symm hj]

theorem mem_ids_checkOut {j : ItemId} : j ∈ (c.checkOut id).ids ↔ j ≠ id ∧ j ∈ c.ids := by
  rw [mem_ids, mem_ids, getElem?_checkOut]
  by_cases hj : id = j
  · simp [hj]
  · simp [hj, Ne.symm hj]

theorem mem_ids_remove {j : ItemId} : j ∈ (c.remove id).2.ids ↔ j ≠ id ∧ j ∈ c.ids := by
  rw [mem_ids, mem_ids, getElem?_remove]
  by_cases hj : id = j
  · simp [hj]
  · simp [hj, Ne.symm hj]

theorem ids_checkIn_of_some (hid : c.items[id]? = some item) (item' : Item) :
    (c.checkIn id item').ids = c.ids := by
  refine ids_congr fun j => ?_
  rw [mem_ids_checkIn, or_iff_right_of_imp]
  rintro rfl
  exact mem_ids.2 ⟨item, hid⟩

/-- An item that was taken out and put back. -/
theorem ids_putBack (hid : c.items[id]? = some item) (h : c'.ids = (c.checkOut id).ids) (item' : Item) :
    (c'.checkIn id item').ids = c.ids := by
  refine ids_congr fun j => ?_
  rw [mem_ids_checkIn, h, mem_ids_checkOut]
  by_cases hj : j = id
  · subst hj
    simp only [true_or, true_iff]
    exact mem_ids.2 ⟨item, hid⟩
  · simp [hj]

theorem size_checkOut (hid : c.items[id]? = some item) :
    (c.checkOut id).items.size + 1 = c.items.size := by
  have hlength := (Std.ExtTreeMap.toList_perm_erase hid).length_eq
  rw [List.length_cons, Std.ExtTreeMap.length_toList, Std.ExtTreeMap.length_toList] at hlength
  exact hlength.symm

theorem size_checkIn (hid : c.items[id]? = none) (item : Item) :
    (c.checkIn id item).items.size = c.items.size + 1 := by
  rw [checkIn, Std.ExtTreeMap.size_insert, if_neg]
  rw [Std.ExtTreeMap.contains_eq_isSome_getElem?, hid]
  exact Bool.false_ne_true

end

/-! ## What changes nothing that is shown -/

/-- The same items are cached, and the gauges stay as they are or follow the mode. -/
structure Still (c c' : Cache) : Prop where
  ids : c'.ids = c.ids
  gauge : c'.gauge = c.gauge
  mode : c.ShowsMode → c'.ShowsMode

namespace Still

variable {c c' c'' : Cache} {id : ItemId} {item : Item}

theorem refl : Still c c := ⟨rfl, rfl, fun h => h⟩

theorem trans (h : Still c c') (k : Still c' c'') : Still c c'' :=
  ⟨k.ids.trans h.ids, k.gauge.trans h.gauge, fun hc => k.mode (h.mode hc)⟩

theorem size (h : Still c c') : c'.items.size = c.items.size := by
  rw [← length_ids, ← length_ids, h.ids]

theorem of_telemetry (hids : c'.ids = c.ids) (htelemetry : c'.telemetry = c.telemetry)
    (hmode : c'.mode = c.mode) : Still c c' where
  ids := hids
  gauge := by rw [Cache.gauge, Cache.gauge, htelemetry]
  mode h := by
    rw [ShowsMode, htelemetry, hmode]
    exact h

theorem notes (h : c.Notes c') : Still c c' where
  ids := by rw [h.cache]; rfl
  gauge := h.items
  mode hc := by
    rw [ShowsMode, h.lowMemory, h.cache]
    exact hc

theorem log (c : Cache) (e : Event) : Still c (c.log e) := ⟨rfl, rfl, fun h => h⟩

theorem books (h : Books c c') : Still c c' := by
  refine of_telemetry (ids_of_items h.items) ?_ ?_ <;> rw [h.rest]

theorem trim (c : Cache) (now : Int) (item : Item) : Still c (c.trim now item).2 := by
  rw [Cache.trim]
  split
  · exact refl
  · split
    · exact books (.release c _)
    · exact refl

/-! ### What is said of an item -/

theorem checkIn (hid : c.items[id]? = some item) (item' : Item) : Still c (c.checkIn id item') :=
  of_telemetry (ids_checkIn_of_some hid item') rfl rfl

theorem putBack (hid : c.items[id]? = some item) (h : Still (c.checkOut id) c') (item' : Item) :
    Still c (c'.checkIn id item') :=
  ⟨ids_putBack hid h.ids item', h.gauge, h.mode⟩

theorem modify (c : Cache) (id : ItemId) (f : Item → Item) : Still c (c.modify id f) := by
  rw [Cache.modify]
  split
  · next item hid => exact checkIn hid (f item)
  · exact refl

theorem pin (c : Cache) (id : ItemId) : Still c (c.pin id) := modify c id _

theorem giveUp (c : Cache) (q : Request) (e : Failure) : Still c (c.giveUp q e) :=
  (log c _).trans (modify _ q.item _)

theorem account (c : Cache) (now : Int) (id : Option ItemId) (hits misses : Nat) :
    Still c (c.account now id hits misses) := by
  have hcounted : ∀ c₁ : Cache, Still c₁ ({ c₁ with
      hits := c₁.hits + hits, misses := c₁.misses + misses }.measure (·.served hits misses)) :=
    fun _ => ⟨rfl, rfl, fun h => h⟩
  cases id with
  | none => exact hcounted c
  | some id => exact (modify c id _).trans (hcounted _)

/-! ### The mode -/

theorem enterLowMemory (c : Cache) (now : Int) (requested : Nat) :
    Still c (c.enterLowMemory now requested) := by
  rw [Cache.enterLowMemory]
  split <;> exact ⟨rfl, rfl, fun _ => ⟨fun _ => rfl, fun _ => rfl⟩⟩

theorem warnLowMemory (c : Cache) (now : Int) : Still c (c.warnLowMemory now) := by
  rw [Cache.warnLowMemory]
  split
  · exact ⟨rfl, rfl, fun _ => ⟨fun h => (by cases h), fun h => (by cases h)⟩⟩
  · split
    · have hfold : ∀ (total : Nat) (stats : List ItemStats) (c : Cache),
          Still c (stats.foldl (fun c stats => c.log (.itemReport stats total)) c) := by
        intro total stats
        induction stats with
        | nil => exact fun _ => refl
        | cons s stats ih => exact fun c => (log c _).trans (ih _)
      have hwarned : Still c { c with lastWarning := now } := of_telemetry rfl rfl rfl
      refine hwarned.trans (Still.trans ?_ ((log _ _).trans (log _ _)))
      exact (log _ _).trans (hfold _ _ _)
    · exact refl

end Still

/-! ## Taking memory -/

/-- Items may be gone, and then the gauge shows the number of those that are left. -/
structure Tallies (c c' : Cache) : Prop where
  mode : c.ShowsMode → c'.ShowsMode
  ids : c'.ids ⊆ c.ids
  items : c'.ids = c.ids ∧ c'.gauge = c.gauge ∨
    c'.items.size < c.items.size ∧ c'.gauge = c'.items.size

theorem Still.tallies {c c' : Cache} (h : Still c c') : Tallies c c' :=
  ⟨h.mode, h.ids ▸ fun _ hid => hid, Or.inl ⟨h.ids, h.gauge⟩⟩

namespace Tallies

variable {c c' c'' : Cache}

theorem refl : Tallies c c := Still.refl.tallies

theorem trans (h : Tallies c c') (k : Tallies c' c'') : Tallies c c'' := by
  refine ⟨fun hc => k.mode (h.mode hc), fun _ hid => h.ids (k.ids hid), ?_⟩
  rcases h.items with ⟨hids, hgauge⟩ | ⟨hless, hgauge⟩
  · rcases k.items with ⟨hids', hgauge'⟩ | ⟨hless', hgauge'⟩
    · exact Or.inl ⟨hids'.trans hids, hgauge'.trans hgauge⟩
    · rw [← length_ids c', hids, length_ids] at hless'
      exact Or.inr ⟨hless', hgauge'⟩
  · rcases k.items with ⟨hids', hgauge'⟩ | ⟨hless', hgauge'⟩
    · have hsize : c''.items.size = c'.items.size := by rw [← length_ids, ← length_ids, hids']
      exact Or.inr ⟨by omega, by omega⟩
    · exact Or.inr ⟨Nat.lt_trans hless' hless, hgauge'⟩

theorem still (h : Tallies c c') (k : Still c' c'') : Tallies c c'' := h.trans k.tallies

/-- An item that is removed is not counted any more. -/
theorem of_remove {id : ItemId} {item : Item} (hid : c.items[id]? = some item) :
    (c.ShowsMode → (c.remove id).2.ShowsMode) ∧ (c.remove id).2.items.size + 1 = c.items.size ∧
      (c.remove id).2.gauge = (c.remove id).2.items.size := by
  have hreleased := Books.release (c.checkOut id) item.history.releaseAll
  have hsize := size_checkOut hid
  rw [Cache.remove, hid]
  simp only []
  generalize (c.checkOut id).release item.history.releaseAll = released at hreleased
  obtain ⟨freed, c₁⟩ := released
  generalize Item.entryBytes = entry
  refine ⟨(Still.books hreleased).mode, ?_, rfl⟩
  rw [items_measureItems, items_refund, hreleased.items]
  exact hsize

theorem remove (c : Cache) (id : ItemId) : Tallies c (c.remove id).2 := by
  cases hid : c.items[id]? with
  | none =>
    rw [Cache.remove, hid]
    exact refl
  | some item =>
    obtain ⟨hmode, hsize, hgauge⟩ := of_remove hid
    refine ⟨hmode, fun j hj => ?_, Or.inr ⟨by omega, hgauge⟩⟩
    exact (mem_ids_remove.1 hj).2

theorem requestRemoval (c : Cache) (id : ItemId) : Tallies c (c.requestRemoval id) := by
  rw [Cache.requestRemoval]
  cases hid : c.items[id]? with
  | none => exact refl
  | some item =>
    simp only []
    split
    · exact (Still.checkIn hid _).tallies
    · exact remove c id

theorem removals (ids : List ItemId) (c : Cache) : Tallies c (ids.foldl Cache.requestRemoval c) := by
  induction ids generalizing c with
  | nil => exact refl
  | cons id ids ih => exact (requestRemoval c id).trans (ih _)

/-! ### Eviction -/

theorem evict (reason : EvictionReason) (id : ItemId) (c : Cache) :
    Tallies c (Cache.evict reason id c).2 := by
  have hmeasured : Still (c.remove id).2 (Cache.evict reason id c).2 := by
    cases reason <;> exact ⟨rfl, rfl, fun h => h⟩
  exact (remove c id).still hmeasured

theorem evictAll (reason : EvictionReason) (ids : List ItemId) (c : Cache) :
    Tallies c (freeAll (Cache.evict reason) ids c).2 := by
  induction ids generalizing c with
  | nil => exact refl
  | cons id ids ih => exact (evict reason id c).trans (ih _)

theorem evictUntil (need : Nat) (ids : List ItemId) (freed : Nat) (c : Cache) :
    Tallies c (Cache.evictUntil need ids freed c) := by
  induction ids generalizing freed c with
  | nil => exact refl
  | cons id ids ih =>
    rw [Cache.evictUntil]
    split
    · exact refl
    · exact (evict .weight id c).trans (ih _ _)

theorem makeSpace (c : Cache) (now : Int) (source : ItemId) (size : Nat) :
    Tallies c (c.makeSpace now source size) := by
  have hidle :=
    evictAll .expired (c.ids.filter (c.idle source (c.expireBefore (c.looks now).start))) c
  have htick : ∀ c : Cache, Still c c.tick := fun _ => .of_telemetry rfl rfl rfl
  rw [Cache.makeSpace, makeSpaceIn, evictIdleIn]
  simp only []
  generalize freeAll (Cache.evict .expired) _ c = idle at hidle
  split
  · exact hidle.still (htick _)
  · have hlow := (hidle.still (.enterLowMemory idle.2 (c.looks now).start size)).still
      (.warnLowMemory _ (c.looks now).warning)
    exact (hlow.trans (evictUntil _ _ _ _)).still (htick _)

/-! ### Allocation -/

variable (c) (now : Int) (id : ItemId)

theorem charge (size : Nat) : Tallies c (c.charge now id size).2 := by
  have hbudget : ∀ (c : Cache) (b : Budget), Still c { c with budget := b } :=
    fun _ _ => .of_telemetry rfl rfl rfl
  rcases hcharge : c.charge now id size with ⟨result, c'⟩
  obtain ⟨-, -, rfl⟩ | ⟨-, c₁, rfl, hround⟩ := charge_cases hcharge
  · exact (hbudget c _).tallies
  have hspace := (hbudget c _).tallies.trans (makeSpace c.noteRefusal now id size)
  obtain ⟨-, -, rfl⟩ | ⟨-, -, rfl⟩ := hround
  · exact hspace.still (hbudget _ _)
  · exact hspace.still (hbudget _ _)

theorem holdText (s : String) : Tallies c (c.holdText now id s).2 := by
  have hcharge := charge c now id (StringPool.entryBytes s)
  have hstrings : ∀ (c : Cache) (p : StringPool), Still c { c with strings := p } :=
    fun _ _ => .of_telemetry rfl rfl rfl
  rw [Cache.holdText]
  split
  · exact (hstrings c _).tallies
  · generalize c.charge now id (StringPool.entryBytes s) = charged at hcharge
    obtain ⟨e | ⟨⟨⟩⟩, c₁⟩ := charged
    · exact hcharge
    · exact hcharge.still (hstrings c₁ _)

theorem takeTexts (ss : List String) : Tallies c (Cache.takeTexts now id ss c).2 := by
  induction ss generalizing c with
  | nil => exact refl
  | cons s ss ih =>
    have htext := holdText c now id s
    rw [Cache.takeTexts]
    generalize c.holdText now id s = held at htext
    obtain ⟨e | handle, c₁⟩ := held
    · exact htext
    · have hrest := htext.trans (ih c₁)
      simp only []
      generalize Cache.takeTexts now id ss c₁ = rest at hrest
      obtain ⟨e | ⟨⟨⟩⟩, c₂⟩ := rest
      · exact hrest.still (.books (.releaseText c₂ handle))
      · exact hrest

theorem holdValue (v : Value) : Tallies c (c.holdValue now id v).2 := by
  rw [holdValue_eq]
  cases v with
  | log entry =>
    have hcharge := charge c now id LogEntry.bytes
    rw [Cache.takeValue]
    generalize c.charge now id LogEntry.bytes = charged at hcharge
    obtain ⟨e | ⟨⟨⟩⟩, c₁⟩ := charged
    · exact hcharge
    · have htexts := hcharge.trans (takeTexts c₁ now id (Value.log entry).texts)
      simp only []
      generalize Cache.takeTexts now id (Value.log entry).texts c₁ = held at htexts
      obtain ⟨e | ⟨⟨⟩⟩, c₂⟩ := held
      · exact htexts.still (.books (.refund c₂ LogEntry.bytes))
      · exact htexts
  | float | str | uint | text => exact takeTexts c now id _

/-! ### Growing -/

theorem openOldest (waiting : List Record) (h : History) :
    Tallies c (c.openOldest now id waiting h).2 := by
  have hcharge := charge c now id (Chunk.bytes (History.capacityFor (h.size + waiting.length)))
  rw [Cache.openOldest]
  split
  · exact refl
  · simp only []
    generalize c.charge now id _ = charged at hcharge
    obtain ⟨e | ⟨⟨⟩⟩, c₁⟩ := charged <;> exact hcharge

theorem fill (records : List Record) (h : History) :
    Tallies c (Cache.fill now id records h c).2.2 := by
  induction records generalizing h c with
  | nil => exact refl
  | cons r older ih =>
    have hopen := openOldest c now id (r :: older) h
    rw [Cache.fill]
    generalize c.openOldest now id (r :: older) h = opened at hopen
    obtain ⟨e | h₁, c₁⟩ := opened
    · exact hopen
    · have hvalue := hopen.trans (holdValue c₁ now id r.value)
      simp only []
      generalize c₁.holdValue now id r.value = held at hvalue
      obtain ⟨e | value, c₂⟩ := held
      · exact hvalue.still (.books (.release c₂ _))
      · exact hvalue.trans (ih c₂ (h₁.pushOldest ⟨r.time, value⟩))

theorem reserve (r : Record) (h : History) : Tallies c (c.reserve now id r h).2 := by
  have hvalue := holdValue c now id r.value
  rw [Cache.reserve]
  generalize c.holdValue now id r.value = held at hvalue
  obtain ⟨e | value, c₁⟩ := held
  · exact hvalue
  · have hopen : Tallies c (c₁.openNewest now id h).2 := by
      have hcharge := hvalue.trans (charge c₁ now id (Chunk.bytes (History.capacityFor (h.size + 1))))
      rw [Cache.openNewest]
      split
      · exact hvalue
      · simp only []
        generalize c₁.charge now id _ = charged at hcharge
        obtain ⟨e | ⟨⟨⟩⟩, c₂⟩ := charged <;> exact hcharge
    simp only []
    generalize c₁.openNewest now id h = opened at hopen
    obtain ⟨e | opened, c₂⟩ := opened
    · exact hopen.still (.books (.releaseValue c₂ value))
    · exact hopen

theorem append (r : Record) (item : Item) : Tallies c (c.append now id r item).2.2 := by
  have hreserve := reserve c now id r item.history
  rw [Cache.append]
  generalize c.reserve now id r item.history = reserved at hreserve
  obtain ⟨e | ⟨kept, top, h⟩, c₁⟩ := reserved <;> exact hreserve

theorem insert (r : Record) (item : Item) : Tallies c (c.insert now id r item).2.2 := by
  have hreserve := reserve c now id r item.history
  rw [Cache.insert]
  split
  · exact refl
  · generalize c.reserve now id r item.history = reserved at hreserve
    obtain ⟨e | ⟨kept, top, h⟩, c₁⟩ := reserved
    · exact hreserve
    · simp only []
      split
      · exact hreserve
      · exact hreserve.still (.books (.releaseValue c₁ kept.value))

theorem write (r : Record) (item : Item) : Tallies c (c.write now id r item).2.2 := by
  rw [Cache.write]
  split
  · split
    · exact append c now id r item
    · split
      · exact insert c now id r item
      · exact Still.tallies (.books (.release c _))
  · split
    · exact refl
    · exact append c now id r item
  · exact append c now id r item

/-- **Work on an item** with a written record. -/
theorem offer (expireBefore : Int) (r : Record) (item : Item) :
    Tallies c (c.offer now expireBefore id r item).2.2 := by
  have hwrite := write c now id r item
  rw [Cache.offer]
  split
  · exact refl
  split
  · exact refl
  split
  · exact refl
  generalize c.write now id r item = written at hwrite
  obtain ⟨e | ⟨⟨⟩⟩, item', c₁⟩ := written
  · exact hwrite
  · simp only []
    split <;> exact hwrite

end Tallies

end HistoryCache.Cache
