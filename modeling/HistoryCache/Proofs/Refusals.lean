import HistoryCache.Proofs.Balance

/-!
# Refused charges

The budget counts the charges that it refuses.  Whatever fails for want of memory has had a charge
refused, so where none was refused there was room.  A charge that is refused at first may still be made
after a round of eviction, but not where there is no other item to evict: there the count tells exactly
whether there was room.

* `Cache.Refuses`: what fails adds to the count, nothing takes from it, and what succeeds without another
  item to evict leaves it.
* `Cache.start_refused`: in normal mode a request begins without its item only after a refusal.
* `Cache.finishFill_refused`: a request loses its item to a change of the item or to a refusal.
-/

namespace HistoryCache

namespace Cache

/-! ## Giving back -/

theorem refused_remove (c : Cache) (id : ItemId) :
    (c.remove id).2.budget.refused = c.budget.refused := by
  rw [remove]
  split
  · next item _ =>
    have hreleased := (Books.release (c.checkOut id) item.history.releaseAll).refused
    generalize Item.entryBytes = entry
    exact hreleased
  · rfl

theorem refused_evictAll (reason : EvictionReason) (ids : List ItemId) (c : Cache) :
    (freeAll (evict reason) ids c).2.budget.refused = c.budget.refused := by
  induction ids generalizing c with
  | nil => rfl
  | cons id ids ih => exact (ih _).trans (refused_remove c id)

theorem refused_evictUntil (need : Nat) (ids : List ItemId) (freed : Nat) (c : Cache) :
    (evictUntil need ids freed c).budget.refused = c.budget.refused := by
  induction ids generalizing freed c with
  | nil => rfl
  | cons id ids ih =>
    rw [evictUntil]
    split
    · rfl
    · exact (ih _ _).trans (refused_remove c id)

theorem refused_makeSpace (c : Cache) (now : Int) (source : ItemId) (size : Nat) :
    (c.makeSpace now source size).budget.refused = c.budget.refused := by
  have hidle := refused_evictAll .expired
    (c.ids.filter (c.idle source (c.expireBefore (c.looks now).start))) c
  show (c.makeSpaceIn c.ids (c.looks now) source size).budget.refused = _
  rw [makeSpaceIn, evictIdleIn]
  simp only []
  generalize freeAll (evict .expired) _ c = idle at hidle
  split
  · exact hidle
  · have hlow := (Same.enterLowMemory idle.2 (c.looks now).start size).trans
      (.warnLowMemory _ (c.looks now).warning)
    rw [refused_evictUntil, hlow.budget]
    exact hidle

theorem refused_trim (c : Cache) (now : Int) (item : Item) :
    (c.trim now item).2.budget.refused = c.budget.refused := by
  rw [trim]
  split
  · rfl
  · split
    · exact (Books.release c _).refused
    · rfl

theorem refused_unpin (c : Cache) (now : Int) (id : ItemId) :
    (c.unpin now id).budget.refused = c.budget.refused := by
  rw [unpin]
  split
  · rfl
  · next item _ =>
    simp only []
    split
    · rfl
    · split
      · rfl
      · exact refused_remove _ id
      · exact refused_trim (c.checkOut id) now _

/-! ## A cache with no other item -/

/-- There is no item that could be evicted for another. -/
def Lone (c : Cache) (id : ItemId) : Prop := ∀ j, j ≠ id → c.items[j]? = none

namespace Lone

variable {c c' : Cache} {id : ItemId} {x : Option Item}

theorem congr (h : c.Lone id) (hitems : c'.items = c.items) : c'.Lone id := fun j hj => by
  rw [hitems]
  exact h j hj

/-- No other item is let in with what becomes of the one. -/
theorem updates (h : c.Lone id) (hup : Updates id x c c') : c'.Lone id := fun j hj => by
  rcases hup.2 j hj with hsame | ⟨hnone, -⟩
  · rw [hsame]
    exact h j hj
  · exact hnone

theorem checkOut (h : c.Lone id) : (c.checkOut id).Lone id := fun j hj => by
  rw [getElem?_checkOut, if_neg hj.symm]
  exact h j hj

theorem not_evictable (h : c.Lone id) (j : ItemId) : ¬ c.evictable id j := by
  rw [evictable_iff]
  rintro ⟨hne, item, hitem, -⟩
  rw [h j hne] at hitem
  cases hitem

/-- An eviction round finds nothing. -/
theorem makeSpace (h : c.Lone id) (now : Int) (size : Nat) : Same c (c.makeSpace now id size) := by
  have hidle : c.ids.filter (c.idle id (c.expireBefore (c.looks now).start)) = [] := by
    rw [List.filter_eq_nil_iff]
    intro j _ hj
    rw [idle, Bool.and_eq_true] at hj
    exact h.not_evictable j hj.1
  suffices Same c (c.makeSpaceIn c.ids (c.looks now) id size) from this.trans ⟨rfl, rfl, rfl⟩
  rw [makeSpaceIn, evictIdleIn, hidle, freeAll]
  simp only []
  split
  · exact .refl
  · have hlow := (Same.enterLowMemory c (c.looks now).start size).trans
      (.warnLowMemory _ (c.looks now).warning)
    -- the mode plays no part in what may be evicted
    have hweighed : (((c.enterLowMemory (c.looks now).start size).warnLowMemory
        (c.looks now).warning).byWeightIn c.ids id) = [] :=
      List.eq_nil_iff_forall_not_mem.2 fun j hj =>
        (h.congr hlow.items).not_evictable j (mem_byWeightIn hj)
    rw [hweighed, evictUntil]
    exact hlow

end Lone

/-! ## Charging -/

/-- No refusal is forgotten, and what fails adds one.  What succeeds adds none if there is no other item
than `id` to make space for it. -/
structure Refuses {α : Type} (id : ItemId) (c : Cache) (result : Except CacheFailure α) (c' : Cache) :
    Prop where
  le : c.budget.refused ≤ c'.budget.refused
  lt : ∀ e, result = .error e → c.budget.refused < c'.budget.refused
  evicts : Evicts id c c'
  lone : c.Lone id → ∀ a, result = .ok a → c'.budget.refused = c.budget.refused

namespace Refuses

variable {α β : Type} {id : ItemId} {c c' c'' : Cache} {result : Except CacheFailure α}
  {result' : Except CacheFailure β} {a : α} {e e' : CacheFailure}

theorem done (a : α) (hitems : c'.items = c.items) (h : c'.budget.refused = c.budget.refused) :
    Refuses id c (.ok a : Except CacheFailure α) c' :=
  ⟨Nat.le_of_eq h.symm, fun _ he => (by cases he), .of_items hitems, fun _ _ _ => h⟩

/-- A failure is passed on. -/
theorem failed (h : Refuses id c (.error e : Except CacheFailure α) c') (hbooks : Books c' c'') :
    Refuses id c (.error e' : Except CacheFailure β) c'' := by
  have hlt := h.lt e rfl
  have hsame := hbooks.refused
  exact ⟨by omega, fun _ _ => by omega, h.evicts.trans (.of_items hbooks.items),
    fun _ _ ha => by cases ha⟩

/-- What succeeds may be followed by more. -/
theorem trans (h : Refuses id c (.ok a : Except CacheFailure α) c') (k : Refuses id c' result' c'') :
    Refuses id c result' c'' :=
  ⟨h.le.trans k.le, fun e he => Nat.lt_of_le_of_lt h.le (k.lt e he), h.evicts.trans k.evicts,
    fun hlone b hb => (k.lone (hlone.updates h.evicts.updates) b hb).trans (h.lone hlone a rfl)⟩

theorem charge (c : Cache) (now : Int) (id : ItemId) (size : Nat) :
    Refuses id c (c.charge now id size).1 (c.charge now id size).2 := by
  have hevicts := charge_evicts c now id size
  rcases hcharge : c.charge now id size with ⟨result, c'⟩
  rw [hcharge] at hevicts
  obtain ⟨-, rfl, rfl⟩ | ⟨hunfit, c₁, rfl, hround⟩ := charge_cases hcharge
  · exact .done () rfl rfl
  have hrefused : (c.noteRefusal.makeSpace now id size).budget.refused = c.budget.refused + 1 :=
    refused_makeSpace c.noteRefusal now id size
  obtain ⟨hfits, rfl, rfl⟩ | ⟨-, rfl, rfl⟩ := hround
  · refine ⟨?_, fun e he => (by cases he), hevicts, fun hlone _ _ => ?_⟩
    · show c.budget.refused ≤ (c.noteRefusal.makeSpace now id size).budget.refused
      omega
    · have hnoted : c.noteRefusal.Lone id := hlone.congr rfl
      rw [(hnoted.makeSpace now size).budget] at hfits
      exact absurd hfits hunfit
  · refine ⟨?_, fun e _ => ?_, hevicts, fun _ _ ha => by cases ha⟩
    · show c.budget.refused ≤ (c.noteRefusal.makeSpace now id size).budget.refused + 1
      omega
    · show c.budget.refused < (c.noteRefusal.makeSpace now id size).budget.refused + 1
      omega

theorem holdText (c : Cache) (now : Int) (id : ItemId) (s : String) :
    Refuses id c (c.holdText now id s).1 (c.holdText now id s).2 := by
  have hcharge := charge c now id (StringPool.entryBytes s)
  rw [Cache.holdText]
  split
  · exact .done _ rfl rfl
  · generalize c.charge now id (StringPool.entryBytes s) = charged at hcharge
    obtain ⟨e | ⟨⟨⟩⟩, c₁⟩ := charged
    · exact hcharge.failed .refl
    · exact hcharge.trans (.done _ rfl rfl)

theorem takeTexts (now : Int) (id : ItemId) (ss : List String) (c : Cache) :
    Refuses id c (Cache.takeTexts now id ss c).1 (Cache.takeTexts now id ss c).2 := by
  induction ss generalizing c with
  | nil => exact .done () rfl rfl
  | cons s ss ih =>
    have htext := holdText c now id s
    rw [Cache.takeTexts]
    generalize c.holdText now id s = held at htext
    obtain ⟨e | handle, c₁⟩ := held
    · exact htext.failed .refl
    · have hrest := htext.trans (ih c₁)
      simp only []
      generalize Cache.takeTexts now id ss c₁ = rest at hrest
      obtain ⟨e | ⟨⟨⟩⟩, c₂⟩ := rest
      · exact hrest.failed (Books.releaseText c₂ handle)
      · exact hrest

theorem takeValue (c : Cache) (now : Int) (id : ItemId) (v : Value) :
    Refuses id c (c.takeValue now id v).1 (c.takeValue now id v).2 := by
  cases v with
  | log entry =>
    have hcharge := charge c now id LogEntry.bytes
    rw [Cache.takeValue]
    generalize c.charge now id LogEntry.bytes = charged at hcharge
    obtain ⟨e | ⟨⟨⟩⟩, c₁⟩ := charged
    · exact hcharge
    · have htexts := hcharge.trans (takeTexts now id (Value.log entry).texts c₁)
      simp only []
      generalize Cache.takeTexts now id (Value.log entry).texts c₁ = held at htexts
      obtain ⟨e | ⟨⟨⟩⟩, c₂⟩ := held
      · exact htexts.failed (Books.refund c₂ LogEntry.bytes)
      · exact htexts
  | float | str | uint | text => exact takeTexts now id _ c

theorem holdValue (c : Cache) (now : Int) (id : ItemId) (v : Value) :
    Refuses id c (c.holdValue now id v).1 (c.holdValue now id v).2 := by
  have htaken := takeValue c now id v
  rw [holdValue_eq]
  generalize c.takeValue now id v = taken at htaken
  obtain ⟨e | ⟨⟨⟩⟩, c₁⟩ := taken
  · exact htaken.failed .refl
  · exact htaken.trans (.done _ rfl rfl)

theorem openOldest (c : Cache) (now : Int) (id : ItemId) (waiting : List Record) (h : History) :
    Refuses id c (c.openOldest now id waiting h).1 (c.openOldest now id waiting h).2 := by
  have hcharge := charge c now id (Chunk.bytes (History.capacityFor (h.size + waiting.length)))
  rw [Cache.openOldest]
  split
  · exact .done h rfl rfl
  · simp only []
    generalize c.charge now id _ = charged at hcharge
    obtain ⟨e | ⟨⟨⟩⟩, c₁⟩ := charged
    · exact hcharge.failed .refl
    · exact hcharge.trans (.done _ rfl rfl)

theorem fill (now : Int) (id : ItemId) (records : List Record) (h : History) (c : Cache) :
    Refuses id c (Cache.fill now id records h c).1 (Cache.fill now id records h c).2.2 := by
  induction records generalizing h c with
  | nil => exact .done () rfl rfl
  | cons r older ih =>
    have hopen := openOldest c now id (r :: older) h
    rw [Cache.fill]
    generalize c.openOldest now id (r :: older) h = opened at hopen
    obtain ⟨e | h₁, c₁⟩ := opened
    · exact hopen.failed .refl
    · have hvalue := hopen.trans (holdValue c₁ now id r.value)
      simp only []
      generalize c₁.holdValue now id r.value = held at hvalue
      obtain ⟨e | value, c₂⟩ := held
      · exact hvalue.failed (Books.release c₂ _)
      · exact hvalue.trans (ih (h₁.pushOldest ⟨r.time, value⟩) c₂)

end Refuses

/-! ## Requests -/

variable {c c' : Cache} {now : Int} {q : Request}

@[simp] theorem budget_modify (c : Cache) (id : ItemId) (f : Item → Item) :
    (c.modify id f).budget = c.budget := by
  rw [modify]
  split <;> rfl

theorem refused_answer (c : Cache) (now : Int) (q : Request) (read : Nat) (item : Item) :
    (c.answer now q read item).2.budget.refused = c.budget.refused := by
  have haccount : ∀ (c : Cache) (hits misses : Nat),
      (c.account now (some q.item) hits misses).budget = c.budget :=
    fun c _ _ => budget_modify c q.item _
  rw [answer]
  simp only []
  rw [refused_unpin, haccount]
  rfl

theorem refused_finishBypass (c : Cache) (now : Int) (q : Request) (held : Bool)
    (result : Except StoreFailure (List Record)) :
    (c.finishBypass now q held result).budget.refused = c.budget.refused := by
  have hheld : ∀ c : Cache, (if held then c.unpin now q.item else c).budget.refused =
      c.budget.refused := fun c => by
    split
    · exact refused_unpin c now q.item
    · rfl
  cases result with
  | ok records => exact hheld (c.account now none 0 records.length)
  | error e => exact hheld c

theorem refused_giveUp (c : Cache) (q : Request) (e : Failure) :
    (c.giveUp q e).budget.refused = c.budget.refused := by
  rw [giveUp, budget_modify]
  rfl

/-- In normal mode an item is admitted if there is room, and with no other item to evict only then. -/
theorem ensure_refused {found : Bool} (h : c.ensure now q = (found, c')) :
    c.budget.refused ≤ c'.budget.refused ∧
      (c.mode = .normal → found = false → c.budget.refused < c'.budget.refused) ∧
      (c.Lone q.item → found = true → c'.budget.refused = c.budget.refused) := by
  have hcharge := Refuses.charge c now q.item Item.entryBytes
  rw [ensure] at h
  split at h
  · cases h
    exact ⟨Nat.le_refl _, fun _ hfound => (by cases hfound), fun _ _ => rfl⟩
  split at h
  · next hlow =>
    cases h
    exact ⟨Nat.le_refl _, fun hmode => (by rw [hlow] at hmode; cases hmode), fun _ _ => rfl⟩
  rw [create] at h
  generalize c.charge now q.item Item.entryBytes = charged at hcharge h
  obtain ⟨e | ⟨⟨⟩⟩, c₁⟩ := charged
  · cases h
    exact ⟨hcharge.le, fun _ _ => hcharge.lt e rfl, fun _ hfound => by cases hfound⟩
  · cases h
    exact ⟨hcharge.le, fun _ hfound => (by cases hfound), fun hlone _ => hcharge.lone hlone () rfl⟩

/-- In normal mode a request begins with its item unless there is no room for the item, and with no other
item to evict only if there is room. -/
theorem start_refused {next : Start} (hmode : c.mode = .normal) (h : c.start now q = (next, c')) :
    c.budget.refused ≤ c'.budget.refused ∧
      (next = .bypass false → c.budget.refused < c'.budget.refused) ∧
      (c.Lone q.item → next ≠ .bypass false → c'.budget.refused = c.budget.refused) := by
  have hgreeted : (if c.mode = .lowMemory then c.warnLowMemory now else c) = c := by rw [hmode]; rfl
  rw [start, hgreeted] at h
  simp only [] at h
  generalize hensure : c.ensure now q = ensured at h
  obtain ⟨found, c₁⟩ := ensured
  obtain ⟨hle, hlt, hlone⟩ := ensure_refused hensure
  cases found with
  | false =>
    cases h
    exact ⟨hle, fun _ => hlt hmode rfl, fun _ hnext => absurd rfl hnext⟩
  | true =>
    have hpin : (c₁.pin q.item).budget.refused = c₁.budget.refused := by rw [pin, budget_modify]
    -- with its item found the request makes no further charge
    suffices c'.budget.refused = c₁.budget.refused ∧ next ≠ .bypass false by
      rw [this.1]
      exact ⟨hle, fun hnext => absurd hnext this.2, fun hother _ => hlone hother rfl⟩
    simp only [] at h
    split at h
    · cases h
      exact ⟨(refused_giveUp _ _ _).trans hpin, fun hnext => by cases hnext⟩
    · next item _ =>
      split at h
      · cases h
        exact ⟨hpin, fun hnext => by cases hnext⟩
      · have hanswer := refused_answer (c₁.pin q.item) now q 0 item
        generalize (c₁.pin q.item).answer now q 0 item = answered at h hanswer
        cases h
        exact ⟨hanswer.trans hpin, fun hnext => by cases hnext⟩

/-- What was read for an item enters its history if there is room and the item is as it was, and with no
other item to evict only if there is room. -/
theorem finishFill_refused {item : Item} {fill : Fill} {fetched : Fetched}
    {answer : Option (List Record)} (hid : c.items[q.item]? = some item)
    (hwrites : item.tailWrites = fill.tailWrites) (hstate : item.state ≠ .removePending)
    (h : c.finishFill now q fill (.ok fetched) = (answer, c')) :
    (answer = none → c.budget.refused < c'.budget.refused) ∧
      (c.Lone q.item → answer ≠ none → c'.budget.refused = c.budget.refused) := by
  have hsame : ¬ (item.tailWrites ≠ fill.tailWrites ∨ item.state = .removePending) := by
    rintro (hne | hpending)
    · exact hne hwrites
    · exact hstate hpending
  have hfill := Refuses.fill now q.item (belowHistory item.history fetched.records) item.history
    (c.checkOut q.item)
  rw [finishFill, extend, hid] at h
  simp only [if_neg hsame, prepend] at h
  generalize Cache.fill now q.item (belowHistory item.history fetched.records) item.history
    (c.checkOut q.item) = filled at hfill h
  obtain ⟨e | ⟨⟨⟩⟩, g, c₁⟩ := filled
  · cases h
    refine ⟨fun _ => ?_, fun _ hanswer => absurd rfl hanswer⟩
    rw [refused_giveUp]
    exact hfill.lt e rfl
  · cases h
    refine ⟨fun hnone => (by cases hnone), fun hlone _ => ?_⟩
    rw [refused_answer]
    exact hfill.lone hlone.checkOut () rfl

end Cache

end HistoryCache
