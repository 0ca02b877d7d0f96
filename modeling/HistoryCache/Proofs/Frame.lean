import HistoryCache.Proofs.Copies

/-!
# What an allocation does to the items

Giving bytes back leaves the items alone.  Asking for bytes on behalf of an item may evict others,
and that is all it does (`Cache.Evicts`): an item that is in the cache before is the same afterwards
or gone as a whole, and one that somebody holds is never gone, nor is the one that the bytes are for.
-/

namespace HistoryCache

namespace Cache

/-! ## The map -/

theorem getElem?_checkIn (c : Cache) (id : ItemId) (item : Item) (j : ItemId) :
    (c.checkIn id item).items[j]? = if id = j then some item else c.items[j]? := by
  simp [checkIn, Std.ExtTreeMap.getElem?_insert]

theorem getElem?_checkOut (c : Cache) (id j : ItemId) :
    (c.checkOut id).items[j]? = if id = j then none else c.items[j]? := by
  simp [checkOut, Std.ExtTreeMap.getElem?_erase]

theorem getElem?_modify (c : Cache) (id : ItemId) (f : Item → Item) (j : ItemId) :
    (c.modify id f).items[j]? = if id = j then (c.items[j]?).map f else c.items[j]? := by
  rw [modify]
  cases hid : c.items[id]? with
  | none =>
    simp only []
    by_cases h : id = j
    · rw [if_pos h, ← h, hid]
      rfl
    · rw [if_neg h]
  | some item =>
    simp only [Std.ExtTreeMap.getElem?_insert, Nat.compare_eq_eq]
    by_cases h : id = j
    · rw [if_pos h, if_pos h, ← h, hid]
      rfl
    · rw [if_neg h, if_neg h]

theorem mem_ids {c : Cache} {id : ItemId} : id ∈ c.ids ↔ ∃ item, c.items[id]? = some item := by
  rw [ids, Std.ExtTreeMap.mem_keys, ← Std.ExtTreeMap.contains_iff_mem,
    Std.ExtTreeMap.contains_eq_isSome_getElem?, Option.isSome_iff_exists]

@[simp] theorem items_measureItems (c : Cache) : c.measureItems.items = c.items := rfl

@[simp] theorem items_account_none (c : Cache) (now : Int) (hits misses : Nat) :
    (c.account now none hits misses).items = c.items := by
  rw [account]
  rfl

/-! ## Giving back -/

/-- Nothing changes but the pool of texts and what is in use of the budget. -/
structure Books (c c' : Cache) : Prop where
  rest : c' = { c with strings := c'.strings, budget := c'.budget }
  total : c'.budget.total = c.budget.total
  high : c'.budget.highWatermark = c.budget.highWatermark
  refused : c'.budget.refused = c.budget.refused

namespace Books

variable {c c' c'' : Cache}

theorem refl : Books c c := ⟨rfl, rfl, rfl, rfl⟩

theorem trans (h : Books c c') (k : Books c' c'') : Books c c'' :=
  ⟨k.rest.trans (by rw [h.rest]), k.total.trans h.total, k.high.trans h.high, k.refused.trans h.refused⟩

theorem items (h : Books c c') : c'.items = c.items := by rw [h.rest]

theorem refund (c : Cache) (size : Nat) : Books c (c.refund size) := ⟨rfl, rfl, rfl, rfl⟩

theorem releaseText (c : Cache) (s : Handle) : Books c (c.releaseText s).2 := by
  rw [Cache.releaseText]
  generalize c.strings.release s = released
  simp only []
  split <;> exact ⟨rfl, rfl, rfl, rfl⟩

theorem freeAll {α : Type} {f : α → Cache → Nat × Cache} (hf : ∀ a c, Books c (f a c).2) (as : List α)
    (c : Cache) : Books c (Cache.freeAll f as c).2 := by
  induction as generalizing c with
  | nil => exact refl
  | cons a as ih => exact (hf a c).trans (ih _)

theorem releaseValue (c : Cache) (v : CachedValue) : Books c (c.releaseValue v).2 := by
  have htexts : ∀ (handles : List Handle) (c : Cache), Books c (c.releaseTexts handles).2 :=
    freeAll fun s c => releaseText c s
  cases v with
  | log entry => exact (refund c LogEntry.bytes).trans (htexts _ _)
  | float | str | uint | text => exact htexts _ _

theorem release (c : Cache) (gone : Released) : Books c (c.release gone).2 := by
  have hrecords := freeAll (f := fun (r : CachedRecord) (c : Cache) => c.releaseValue r.value)
    (fun r c => releaseValue c r.value) gone.kept c
  have hchunks := freeAll (f := fun (n : Nat) (c : Cache) =>
    (Chunk.bytes n, c.refund (Chunk.bytes n))) (fun n c => refund c (Chunk.bytes n)) gone.chunks
  exact hrecords.trans (hchunks _)

end Books

@[simp] theorem items_refund (c : Cache) (size : Nat) : (c.refund size).items = c.items :=
  (Books.refund c size).items

@[simp] theorem items_releaseText (c : Cache) (s : Handle) :
    (c.releaseText s).2.items = c.items := (Books.releaseText c s).items

@[simp] theorem items_releaseValue (c : Cache) (v : CachedValue) :
    (c.releaseValue v).2.items = c.items := (Books.releaseValue c v).items

@[simp] theorem items_release (c : Cache) (gone : Released) :
    (c.release gone).2.items = c.items := (Books.release c gone).items

theorem getElem?_remove (c : Cache) (id j : ItemId) :
    (c.remove id).2.items[j]? = if id = j then none else c.items[j]? := by
  rw [remove]
  cases hid : c.items[id]? with
  | none =>
    by_cases h : id = j
    · rw [if_pos h, ← h]
      exact hid
    · rw [if_neg h]
  | some item =>
    rw [← getElem?_checkOut]
    simp only [items_measureItems, items_refund, items_release]

/-! ## Eviction -/

/-- The items of a cache after others than `source` were evicted for it. -/
def Evicts (source : ItemId) (c c' : Cache) : Prop :=
  ∀ j, c'.items[j]? = c.items[j]? ∨
    c'.items[j]? = none ∧ j ≠ source ∧ ∃ item, c.items[j]? = some item ∧ item.pins = 0

namespace Evicts

variable {source : ItemId} {c c' c'' : Cache}

theorem of_items (h : c'.items = c.items) : Evicts source c c' := fun j => Or.inl (by rw [h])

theorem refl : Evicts source c c := of_items rfl

theorem trans (h : Evicts source c c') (k : Evicts source c' c'') : Evicts source c c'' := by
  intro j
  rcases k j with hj | ⟨hnone, hne, item, hitem, hpins⟩
  · rw [hj]
    exact h j
  · rcases h j with hj | ⟨hnone', -⟩
    · exact Or.inr ⟨hnone, hne, item, by rw [← hj, hitem], hpins⟩
    · rw [hnone'] at hitem
      cases hitem

/-- The item that the bytes are for stays. -/
theorem source_eq (h : Evicts source c c') : c'.items[source]? = c.items[source]? :=
  (h source).resolve_right fun k => k.2.1 rfl

/-- An item that is left is the same as before. -/
theorem of_some (h : Evicts source c c') {j : ItemId} {item : Item}
    (hj : c'.items[j]? = some item) : c.items[j]? = some item := by
  rcases h j with hj' | ⟨hnone, -⟩
  · rw [← hj', hj]
  · rw [hnone] at hj
    cases hj

end Evicts

theorem evictable_iff {c : Cache} {source id : ItemId} :
    c.evictable source id ↔ id ≠ source ∧ ∃ item, c.items[id]? = some item ∧ item.pins = 0 := by
  rw [evictable]
  cases c.items[id]? with
  | none => simp
  | some item => simp [and_comm]

/-- Removing evictable items is eviction, in whatever order and however far it goes. -/
theorem Evicts.of_getElem? {source : ItemId} {c c' : Cache} (ids : List ItemId)
    (hids : ∀ id ∈ ids, c.evictable source id)
    (h : ∀ j, c'.items[j]? = c.items[j]? ∨ j ∈ ids ∧ c'.items[j]? = none) :
    Evicts source c c' := by
  intro j
  rcases h j with hj | ⟨hmem, hnone⟩
  · exact Or.inl hj
  · exact Or.inr ⟨hnone, evictable_iff.1 (hids j hmem)⟩

theorem getElem?_evict (reason : EvictionReason) (id : ItemId) (c : Cache) (j : ItemId) :
    (evict reason id c).2.items[j]? = if id = j then none else c.items[j]? :=
  getElem?_remove c id j

theorem evictIdleIn_evicts (c : Cache) (order : List ItemId) (source : ItemId) (before : Int) :
    Evicts source c (c.evictIdleIn order source before).2 := by
  have hkey : ∀ (ids : List ItemId) (c : Cache) (j : ItemId),
      (freeAll (evict .expired) ids c).2.items[j]? = c.items[j]? ∨
        j ∈ ids ∧ (freeAll (evict .expired) ids c).2.items[j]? = none := by
    intro ids
    induction ids with
    | nil => exact fun c j => Or.inl rfl
    | cons id ids ih =>
      intro c j
      change (freeAll (evict .expired) ids (evict .expired id c).2).2.items[j]? = _ ∨ _ ∧
        (freeAll (evict .expired) ids (evict .expired id c).2).2.items[j]? = _
      rcases ih (evict .expired id c).2 j with hj | ⟨hmem, hnone⟩
      · rw [hj, getElem?_evict]
        split
        · next h => exact Or.inr ⟨by rw [h]; exact List.mem_cons_self, rfl⟩
        · exact Or.inl rfl
      · exact Or.inr ⟨List.mem_cons_of_mem id hmem, hnone⟩
  refine Evicts.of_getElem? (order.filter (c.idle source before)) (fun id hid => ?_)
    (hkey _ c)
  have hidle := (List.mem_filter.1 hid).2
  rw [idle, Bool.and_eq_true] at hidle
  exact hidle.1

theorem evictUntil_getElem? (need : Nat) (ids : List ItemId) (freed : Nat) (c : Cache)
    (j : ItemId) : (evictUntil need ids freed c).items[j]? = c.items[j]? ∨
      j ∈ ids ∧ (evictUntil need ids freed c).items[j]? = none := by
  induction ids generalizing freed c with
  | nil => exact Or.inl rfl
  | cons id ids ih =>
    rw [evictUntil]
    split
    · exact Or.inl rfl
    · change (evictUntil need ids (freed + (evict .weight id c).1) (evict .weight id c).2).items[j]?
          = _ ∨ _ ∧
        (evictUntil need ids (freed + (evict .weight id c).1) (evict .weight id c).2).items[j]? = _
      rcases ih (freed + (evict .weight id c).1) (evict .weight id c).2 with hj | ⟨hmem, hnone⟩
      · rw [hj, getElem?_evict]
        split
        · next h => exact Or.inr ⟨by rw [h]; exact List.mem_cons_self, rfl⟩
        · exact Or.inl rfl
      · exact Or.inr ⟨List.mem_cons_of_mem id hmem, hnone⟩

theorem mem_byWeightIn {c : Cache} {order : List ItemId} {source id : ItemId}
    (h : id ∈ c.byWeightIn order source) : c.evictable source id := by
  rw [byWeightIn, List.mem_map] at h
  obtain ⟨⟨i, w⟩, hmem, rfl⟩ := h
  rw [List.mem_mergeSort, List.mem_filterMap] at hmem
  obtain ⟨i', hi', heq⟩ := hmem
  obtain ⟨item, -, heq⟩ := Option.map_eq_some_iff.1 heq
  cases heq
  exact (List.mem_filter.1 hi').2

@[simp] theorem items_reportItems (c : Cache) : c.reportItems.items = c.items := by
  have hfold : ∀ (total : Nat) (stats : List ItemStats) (c : Cache),
      (stats.foldl (fun c stats => c.log (.itemReport stats total)) c).items = c.items := by
    intro total stats
    induction stats with
    | nil => exact fun _ => rfl
    | cons s stats ih => exact fun c => ih _
  exact hfold _ _ _

@[simp] theorem items_warnLowMemory (c : Cache) (now : Int) :
    (c.warnLowMemory now).items = c.items := by
  rw [warnLowMemory]
  split
  · rfl
  · split
    · exact items_reportItems _
    · rfl

@[simp] theorem items_enterLowMemory (c : Cache) (now : Int) (requested : Nat) :
    (c.enterLowMemory now requested).items = c.items := by
  rw [enterLowMemory]
  split <;> rfl

theorem makeSpaceIn_evicts (c : Cache) (order : List ItemId) (looks : Looks) (source : ItemId)
    (size : Nat) : Evicts source c (c.makeSpaceIn order looks source size) := by
  rw [makeSpaceIn]
  have hidle := evictIdleIn_evicts c order source (c.expireBefore looks.start)
  simp only []
  generalize c.evictIdleIn order source (c.expireBefore looks.start) = idle at hidle
  split
  · exact hidle
  · have hlow : Evicts source idle.2
        ((idle.2.enterLowMemory looks.start size).warnLowMemory looks.warning) :=
      Evicts.of_items (by simp)
    refine hidle.trans (hlow.trans ?_)
    exact Evicts.of_getElem? _ (fun id hid => mem_byWeightIn hid) (evictUntil_getElem? _ _ _ _)

theorem makeSpace_evicts (c : Cache) (now : Int) (source : ItemId) (size : Nat) :
    Evicts source c (c.makeSpace now source size) :=
  (makeSpaceIn_evicts c c.ids (c.looks now) source size).trans (Evicts.of_items rfl)

/-! ## Allocation -/

/-- A refusal is counted. -/
def noteRefusal (c : Cache) : Cache :=
  { c with budget := { c.budget with refused := c.budget.refused + 1 } }

/-- An allocation is taken into account. -/
def charged (c : Cache) (size : Nat) : Cache := { c with budget := c.budget.charge size }

/-- **A charge** is made if it fits, and otherwise it is made or refused after a round of eviction. -/
theorem charge_cases {c c' : Cache} {now : Int} {source : ItemId} {size : Nat}
    {result : Except CacheFailure Unit} (h : c.charge now source size = (result, c')) :
    c.budget.Fits size ∧ result = .ok () ∧ c' = c.charged size ∨
      ¬ c.budget.Fits size ∧ ∃ c₁, c₁ = c.noteRefusal.makeSpace now source size ∧
        (c₁.budget.Fits size ∧ result = .ok () ∧ c' = c₁.charged size ∨
          ¬ c₁.budget.Fits size ∧ result = .error (.outOfMemory size) ∧ c' = c₁.noteRefusal) := by
  rw [charge] at h
  by_cases hfits : c.budget.Fits size
  · rw [Budget.tryCharge_of_fits hfits] at h
    cases h
    exact Or.inl ⟨hfits, rfl, rfl⟩
  rw [Budget.tryCharge_of_not_fits hfits] at h
  simp only [] at h
  generalize hround : ({ c with budget := { c.budget with refused := c.budget.refused + 1 } } : Cache).makeSpace
    now source size = c₁ at h
  refine Or.inr ⟨hfits, c₁, hround.symm, ?_⟩
  by_cases hfits₁ : c₁.budget.Fits size
  · rw [Budget.tryCharge_of_fits hfits₁] at h
    cases h
    exact Or.inl ⟨hfits₁, rfl, rfl⟩
  · rw [Budget.tryCharge_of_not_fits hfits₁] at h
    cases h
    exact Or.inr ⟨hfits₁, rfl, rfl⟩

theorem charge_evicts (c : Cache) (now : Int) (source : ItemId) (size : Nat) :
    Evicts source c (c.charge now source size).2 := by
  rcases hcharge : c.charge now source size with ⟨result, c'⟩
  obtain ⟨-, -, rfl⟩ | ⟨-, c₁, rfl, hround⟩ := charge_cases hcharge
  · exact Evicts.of_items rfl
  · have hspace : Evicts source c (c.noteRefusal.makeSpace now source size) :=
      (Evicts.of_items rfl).trans (makeSpace_evicts c.noteRefusal now source size)
    obtain ⟨-, -, rfl⟩ | ⟨-, -, rfl⟩ := hround
    · exact hspace.trans (Evicts.of_items rfl)
    · exact hspace.trans (Evicts.of_items rfl)

theorem holdText_evicts (c : Cache) (now : Int) (source : ItemId) (s : String) :
    Evicts source c (c.holdText now source s).2 := by
  have hcharge := charge_evicts c now source (StringPool.entryBytes s)
  rw [holdText]
  split
  · exact Evicts.of_items rfl
  · split
    · next heq =>
      rw [heq] at hcharge
      exact hcharge.trans (Evicts.of_items rfl)
    · next heq =>
      rw [heq] at hcharge
      exact hcharge

theorem takeTexts_evicts (now : Int) (source : ItemId) (ss : List String) (c : Cache) :
    Evicts source c (takeTexts now source ss c).2 := by
  induction ss generalizing c with
  | nil => exact Evicts.refl
  | cons s ss ih =>
    have htext := holdText_evicts c now source s
    rw [takeTexts]
    split
    · next heq =>
      rw [heq] at htext
      exact htext
    · next c' heq =>
      rw [heq] at htext
      have hrest := ih c'
      split
      · next heq' =>
        rw [heq'] at hrest
        exact htext.trans hrest
      · next heq' =>
        rw [heq'] at hrest
        exact (htext.trans hrest).trans (Evicts.of_items (by simp))

theorem holdValue_evicts (c : Cache) (now : Int) (source : ItemId) (v : Value) :
    Evicts source c (c.holdValue now source v).2 := by
  have hcharge := charge_evicts c now source LogEntry.bytes
  rw [holdValue_eq]
  cases v with
  | log entry =>
    rw [takeValue]
    split
    · next heq =>
      rw [heq] at hcharge
      exact hcharge
    · next c' heq =>
      rw [heq] at hcharge
      have htexts := takeTexts_evicts now source (Value.log entry).texts c'
      split
      · next heq' =>
        rw [heq'] at htexts
        exact hcharge.trans htexts
      · next heq' =>
        rw [heq'] at htexts
        exact (hcharge.trans htexts).trans (Evicts.of_items rfl)
  | float | str | uint | text => exact takeTexts_evicts now source _ c

/-! ## Failure -/

theorem charge_error {c c' : Cache} {now : Int} {source : ItemId} {size : Nat} {e : CacheFailure}
    (h : c.charge now source size = (.error e, c')) : e = .outOfMemory size := by
  obtain ⟨-, heq, -⟩ | ⟨-, c₁, -, ⟨-, heq, -⟩ | ⟨-, heq, -⟩⟩ := charge_cases h
  · cases heq
  · cases heq
  · cases heq
    rfl

theorem holdText_error {c c' : Cache} {now : Int} {source : ItemId} {s : String}
    {e : CacheFailure} (h : c.holdText now source s = (.error e, c')) :
    ∃ n, e = .outOfMemory n := by
  rw [holdText] at h
  split at h
  · cases h
  · split at h
    · cases h
    · next heq =>
      cases h
      exact ⟨_, charge_error heq⟩

theorem takeTexts_error {now : Int} {source : ItemId} {ss : List String} {c c' : Cache}
    {e : CacheFailure} (h : takeTexts now source ss c = (.error e, c')) :
    ∃ n, e = .outOfMemory n := by
  induction ss generalizing c c' with
  | nil => cases h
  | cons s ss ih =>
    rw [takeTexts] at h
    split at h
    · next heq =>
      cases h
      exact holdText_error heq
    · split at h
      · cases h
      · next heq =>
        cases h
        exact ih heq

/-- Only want of memory keeps a value from being held. -/
theorem holdValue_error {c c' : Cache} {now : Int} {source : ItemId} {v : Value}
    {e : CacheFailure} (h : c.holdValue now source v = (.error e, c')) :
    ∃ n, e = .outOfMemory n := by
  have htaken := holdValue_failed h
  cases v with
  | log entry =>
    rw [takeValue] at htaken
    split at htaken
    · next heq =>
      cases htaken
      exact ⟨_, charge_error heq⟩
    · split at htaken
      · cases htaken
      · next heq =>
        cases htaken
        exact takeTexts_error heq
  | float | str | uint | text => exact takeTexts_error htaken

end Cache

end HistoryCache
