import HistoryCache.Proofs.Ledger
import HistoryCache.Proofs.Serving
import Mathlib.Algebra.Order.BigOperators.Group.List
import Mathlib.Algebra.Order.Group.Multiset

/-!
# The books of a cache at work

While the cache works on something, that is outside the map and charged for all the same.
`Cache.Balanced c E` says that the budget and the pool tell of the cached items and of `E`, no more and
no less.  What is taken goes to `E`, and from there to an item or back to the budget.  An attempt that
fails leaves nothing behind (`paid`), whatever was evicted for it.

* `Balanced.checkOut`, `Balanced.checkIn`: an item leaves the map and is put back.
* `Balanced.remove`, `Balanced.makeSpaceIn`: items that are removed give back what they hold.
* `Balanced.charge`, `Balanced.holdValue`: taking, with the evictions that it may take.
-/

namespace HistoryCache

/-- What an attempt to take something leaves charged. -/
def paid {α : Type} (result : Except CacheFailure α) (M : Charges) : Charges :=
  match result with
  | .ok _ => M
  | .error _ => 0

theorem add_paid_error {α : Type} (E : Charges) (e : CacheFailure) (M : Charges) :
    E + paid (.error e : Except CacheFailure α) M = E := add_zero E

theorem Item.charges_of_history {item item' : Item} (h : item'.history = item.history) :
    item'.charges = item.charges := by
  rw [charges, charges, h]

theorem Item.charges_empty (kind : Kind) (now : Int) :
    (Item.empty kind now).charges = {.block Item.entryBytes} := rfl

namespace Cache

/-! ## The charges of the cached items -/

section

variable {c c' : Cache} {id : ItemId} {item : Item}

theorem held_congr (h : c'.items = c.items) : c'.held = c.held := by rw [held, held, h]

theorem held_of_some (hid : c.items[id]? = some item) :
    c.held = item.charges + (c.checkOut id).held := by
  rw [held, ((Std.ExtTreeMap.toList_perm_erase hid).map _).sum_eq, List.map_cons, List.sum_cons]
  rfl

theorem held_checkOut_of_none (hid : c.items[id]? = none) : (c.checkOut id).held = c.held :=
  held_congr (Std.ExtTreeMap.erase_of_none hid)

theorem held_checkIn (c : Cache) (id : ItemId) (item : Item) :
    (c.checkIn id item).held = item.charges + (c.checkOut id).held := by
  have hself : (c.checkIn id item).items[id]? = some item := by rw [getElem?_checkIn, if_pos rfl]
  rw [held_of_some hself]
  exact congrArg _ (held_congr (Std.ExtTreeMap.erase_insert_self c.items id item))

/-- What is left after an eviction is part of what there was. -/
theorem Evicts.held_le {source : ItemId} (h : Evicts source c c') : c'.held ≤ c.held := by
  have hsub : c'.items.toList ⊆ c.items.toList := fun ⟨j, item⟩ hj => by
    rw [Std.ExtTreeMap.mem_toList_iff_getElem?_eq_some] at hj ⊢
    exact h.of_some hj
  obtain ⟨left, hperm, hleft⟩ := c'.items.nodup_toList.subperm hsub
  rw [held, held, ← (hperm.map _).sum_eq]
  exact (hleft.map _).sum_le_sum fun _ _ => Multiset.zero_le _

end

/-! ## What is not paid for -/

/-- Nothing changes that is paid for. -/
structure Same (c c' : Cache) : Prop where
  items : c'.items = c.items
  strings : c'.strings = c.strings
  budget : c'.budget = c.budget

namespace Same

variable {c c' c'' : Cache}

theorem refl : Same c c := ⟨rfl, rfl, rfl⟩

theorem trans (h : Same c c') (k : Same c' c'') : Same c c'' :=
  ⟨k.items.trans h.items, k.strings.trans h.strings, k.budget.trans h.budget⟩

theorem log (c : Cache) (e : Event) : Same c (c.log e) := ⟨rfl, rfl, rfl⟩

theorem measure (c : Cache) (f : Metrics → Metrics) : Same c (c.measure f) := ⟨rfl, rfl, rfl⟩

theorem reportItems (c : Cache) : Same c c.reportItems := by
  have hfold : ∀ (total : Nat) (stats : List ItemStats) (c : Cache),
      Same c (stats.foldl (fun c stats => c.log (.itemReport stats total)) c) := by
    intro total stats
    induction stats with
    | nil => exact fun _ => refl
    | cons s stats ih => exact fun c => (log c _).trans (ih _)
  exact (log c _).trans (hfold _ _ _)

theorem warnLowMemory (c : Cache) (now : Int) : Same c (c.warnLowMemory now) := by
  rw [Cache.warnLowMemory]
  split
  · exact ⟨rfl, rfl, rfl⟩
  · split
    · exact (⟨rfl, rfl, rfl⟩ : Same c { c with lastWarning := now }).trans
        ((reportItems _).trans ⟨rfl, rfl, rfl⟩)
    · exact refl

theorem enterLowMemory (c : Cache) (now : Int) (requested : Nat) :
    Same c (c.enterLowMemory now requested) := by
  rw [Cache.enterLowMemory]
  split <;> exact ⟨rfl, rfl, rfl⟩

end Same

/-- The budget and the pool tell of exactly the cached items and of what is held outside the map. -/
structure Balanced (c : Cache) (E : Charges) : Prop where
  sorted : c.All fun _ item => item.history.Sorted
  balances : c.Balances (c.held + E)

namespace Balanced

variable {c c' : Cache} {E M : Charges} {now : Int} {id : ItemId} {item item' : Item} {size : Nat}

theorem congr (h : c.Balanced E) (hsame : Same c c') : c'.Balanced E where
  sorted := h.sorted.congr hsame.items
  balances := by
    rw [held_congr hsame.items]
    exact h.balances.congr hsame.budget hsame.strings

theorem takes (h : c.Balanced E) (hitems : c'.items = c.items)
    (hbooks : c.Balances (c.held + E) → c'.Balances (c.held + E + M)) : c'.Balanced (E + M) where
  sorted := h.sorted.congr hitems
  balances := by
    rw [held_congr hitems, ← add_assoc]
    exact hbooks h.balances

theorem gives (h : c.Balanced (E + M)) (hitems : c'.items = c.items)
    (hbooks : c.Balances (c.held + E + M) → c'.Balances (c.held + E)) : c'.Balanced E where
  sorted := h.sorted.congr hitems
  balances := by
    have hbalances := h.balances
    rw [← add_assoc] at hbalances
    rw [held_congr hitems]
    exact hbooks hbalances

theorem refund (h : c.Balanced (E + {.block size})) : (c.refund size).Balanced E :=
  h.gives (items_refund c size) fun h => h.refund

theorem releaseText {s : String} (h : c.Balanced (E + {.text s})) :
    (c.releaseText ⟨s⟩).2.Balanced E :=
  h.gives (items_releaseText c ⟨s⟩) fun h => h.releaseText

theorem releaseValue {v : CachedValue} (h : c.Balanced (E + v.toValue.charges)) :
    (c.releaseValue v).2.Balanced E :=
  h.gives (items_releaseValue c v) fun h => h.releaseValue

theorem release {gone : Released} (h : c.Balanced (E + gone.charges)) :
    (c.release gone).2.Balanced E :=
  h.gives (items_release c gone) fun h => h.release

/-! ## The map -/

theorem checkOut (h : c.Balanced E) (hid : c.items[id]? = some item) :
    (c.checkOut id).Balanced (E + item.charges) where
  sorted := fun j item' hj => by
    rw [getElem?_checkOut] at hj
    split at hj
    · cases hj
    · exact h.sorted j item' hj
  balances := by
    have hbalances := h.balances
    rw [held_of_some hid, add_assoc, add_comm, add_assoc] at hbalances
    exact hbalances.congr rfl rfl

theorem checkIn (h : c.Balanced (E + item.charges)) (hid : c.items[id]? = none)
    (hs : item.history.Sorted) : (c.checkIn id item).Balanced E where
  sorted := h.sorted.updates (Updates.of_getElem? (getElem?_checkIn c id item)) fun _ hx => by
    cases hx
    exact hs
  balances := by
    have hbalances := h.balances
    rw [add_comm E, ← add_assoc, add_comm c.held] at hbalances
    rw [held_checkIn, held_checkOut_of_none hid]
    exact hbalances.congr rfl rfl

/-- An item is charged for by its history alone. -/
theorem replace (h : c.Balanced E) (hid : c.items[id]? = some item)
    (hhistory : item'.history = item.history) : (c.checkIn id item').Balanced E where
  sorted := h.sorted.updates (Updates.of_getElem? (getElem?_checkIn c id item')) fun _ hx => by
    cases hx
    rw [hhistory]
    exact h.sorted id item hid
  balances := by
    have hbalances := h.balances
    rw [held_of_some hid] at hbalances
    rw [held_checkIn, Item.charges_of_history hhistory]
    exact hbalances.congr rfl rfl

theorem modify (h : c.Balanced E) (id : ItemId) {f : Item → Item}
    (hf : ∀ item, (f item).history = item.history) : (c.modify id f).Balanced E := by
  rw [Cache.modify]
  cases hid : c.items[id]? with
  | none => exact h
  | some item => exact h.replace hid (hf item)

/-! ## Eviction -/

theorem remove (h : c.Balanced E) (id : ItemId) : (c.remove id).2.Balanced E := by
  rw [Cache.remove]
  cases hid : c.items[id]? with
  | none => exact h
  | some item =>
    have hout := h.checkOut hid
    rw [Item.charges, ← add_assoc, ← (h.sorted id item hid).tidy.charges_releaseAll] at hout
    have hreleased := hout.release
    simp only []
    generalize (c.checkOut id).release item.history.releaseAll = released at hreleased ⊢
    obtain ⟨freed, c₁⟩ := released
    exact hreleased.refund.congr (.measure _ _)

theorem evict (h : c.Balanced E) (reason : EvictionReason) (id : ItemId) :
    (Cache.evict reason id c).2.Balanced E := (h.remove id).congr (.measure _ _)

theorem evictAll (h : c.Balanced E) (reason : EvictionReason) (ids : List ItemId) :
    (freeAll (Cache.evict reason) ids c).2.Balanced E := by
  induction ids generalizing c with
  | nil => exact h
  | cons id ids ih => exact ih (h.evict reason id)

theorem evictUntil (h : c.Balanced E) (need : Nat) (ids : List ItemId) (freed : Nat) :
    (Cache.evictUntil need ids freed c).Balanced E := by
  induction ids generalizing c freed with
  | nil => exact h
  | cons id ids ih =>
    rw [Cache.evictUntil]
    split
    · exact h
    · exact ih (h.evict .weight id) _

theorem makeSpaceIn (h : c.Balanced E) (order : List ItemId) (looks : Looks) (source : ItemId)
    (size : Nat) : (c.makeSpaceIn order looks source size).Balanced E := by
  rw [Cache.makeSpaceIn, evictIdleIn]
  have hidle := h.evictAll .expired (order.filter (c.idle source (c.expireBefore looks.start)))
  simp only []
  generalize freeAll (Cache.evict .expired) _ c = idle at hidle
  split
  · exact hidle
  · have hlow := (hidle.congr (.enterLowMemory idle.2 looks.start size)).congr
      (.warnLowMemory _ looks.warning)
    exact hlow.evictUntil _ _ _

theorem makeSpace (h : c.Balanced E) (now : Int) (source : ItemId) (size : Nat) :
    (c.makeSpace now source size).Balanced E :=
  (h.makeSpaceIn c.ids (c.looks now) source size).congr ⟨rfl, rfl, rfl⟩

/-! ## Allocation -/

theorem noteRefusal (h : c.Balanced E) : c.noteRefusal.Balanced E := ⟨h.sorted, h.balances.refused _⟩

/-- **A charge** is made or refused, whatever was evicted for it. -/
theorem charge (h : c.Balanced E) {result : Except CacheFailure Unit}
    (hcharge : c.charge now id size = (result, c')) :
    c'.Balanced (E + paid result {.block size}) := by
  have hcharged : ∀ {c : Cache}, c.Balanced E → c.budget.Fits size →
      (c.charged size).Balanced (E + {.block size}) :=
    fun h hfits => h.takes rfl fun h => h.charged hfits
  obtain ⟨hfits, rfl, rfl⟩ | ⟨-, c₁, rfl, hround⟩ := charge_cases hcharge
  · exact hcharged h hfits
  · have hspace : (c.noteRefusal.makeSpace now id size).Balanced E := h.noteRefusal.makeSpace now id size
    obtain ⟨hfits, rfl, rfl⟩ | ⟨-, rfl, rfl⟩ := hround
    · exact hcharged hspace hfits
    · rw [add_paid_error]
      exact hspace.noteRefusal

/-- The text that a charge is made for is not pooled meanwhile. -/
theorem refs_charge (h : c.Balanced E) {s : String}
    (hcharge : c.charge now id size = (.ok (), c')) (hrefs : c.strings.refs s = 0) :
    c'.strings.refs s = 0 := by
  have hev := charge_evicts c now id size
  rw [hcharge] at hev
  -- an eviction makes references fewer, and there is none to begin with
  have hle : c'.held.count (.text s) ≤ c.held.count (.text s) :=
    Multiset.count_le_of_le _ hev.held_le
  have hbefore := h.balances.refs s
  have hafter := (h.charge hcharge).balances.refs s
  rw [Multiset.count_add] at hbefore
  rw [paid, Multiset.count_add, count_text_add_block] at hafter
  omega

theorem holdText (h : c.Balanced E) {s : String} {result : Except CacheFailure Handle}
    (hhold : c.holdText now id s = (result, c')) : c'.Balanced (E + paid result {.text s}) := by
  rw [Cache.holdText, StringPool.lookup?] at hhold
  by_cases hin : c.strings.contains s
  · rw [if_pos hin] at hhold
    cases hhold
    exact h.takes rfl fun h => h.interned ((h.pooled s).1 hin)
  rw [if_neg hin] at hhold
  simp only [] at hhold
  have hrefs : c.strings.refs s = 0 := by
    rw [h.balances.pooled] at hin
    omega
  split at hhold
  · next c₁ heq =>
    cases hhold
    have hcharged := h.charge heq
    have hout := h.refs_charge heq hrefs
    rw [paid] at hcharged
    refine ⟨hcharged.sorted, ?_⟩
    have hbalances := hcharged.balances
    rw [← add_assoc] at hbalances ⊢
    exact hbalances.pools hout
  · next e c₁ heq =>
    cases hhold
    have hcharged := h.charge heq
    rw [add_paid_error] at hcharged ⊢
    exact hcharged

theorem takeTexts (h : c.Balanced E) {ss : List String} {result : Except CacheFailure Unit}
    (hhold : Cache.takeTexts now id ss c = (result, c')) :
    c'.Balanced (E + paid result (textCharges ss)) := by
  induction ss generalizing c c' E result with
  | nil =>
    cases hhold
    exact (add_zero E).symm ▸ h
  | cons s ss ih =>
    rw [Cache.takeTexts] at hhold
    split at hhold
    · next e c₁ heq =>
      cases hhold
      exact h.holdText heq
    · next handle c₁ heq =>
      have hfirst := h.holdText heq
      split at hhold
      · next c₂ heq₂ =>
        cases hhold
        have hrest := ih hfirst heq₂
        rw [paid, paid, add_assoc, ← textCharges_cons] at hrest
        exact hrest
      · next e c₂ heq₂ =>
        cases hhold
        have hrest := ih hfirst heq₂
        rw [add_paid_error] at hrest
        rw [add_paid_error, holdText_ok heq]
        exact hrest.releaseText

/-- **What a value needs** is taken as a whole or not at all. -/
theorem takeValue (h : c.Balanced E) {v : Value} {result : Except CacheFailure Unit}
    (hhold : c.takeValue now id v = (result, c')) : c'.Balanced (E + paid result v.charges) := by
  cases v with
  | log entry =>
    rw [Cache.takeValue] at hhold
    split at hhold
    · next e c₁ heq =>
      cases hhold
      exact h.charge heq
    · next c₁ heq =>
      have hentry := h.charge heq
      split at hhold
      · next c₂ heq₂ =>
        cases hhold
        have htexts := hentry.takeTexts heq₂
        rw [paid, paid, add_assoc] at htexts
        exact htexts
      · next e c₂ heq₂ =>
        cases hhold
        have htexts := hentry.takeTexts heq₂
        rw [add_paid_error] at htexts
        rw [add_paid_error]
        exact htexts.refund
  | float | str | uint | text =>
    have htexts : Cache.takeTexts now id _ c = (result, c') := hhold
    rw [Value.charges_of_ne_log rfl]
    exact h.takeTexts htexts

theorem holdValue (h : c.Balanced E) {v : Value} {result : Except CacheFailure CachedValue}
    (hhold : c.holdValue now id v = (result, c')) : c'.Balanced (E + paid result v.charges) := by
  have htake : ∀ taken, c.takeValue now id v = taken → taken.2.Balanced (E + paid taken.1 v.charges) :=
    fun taken htaken => h.takeValue htaken
  rw [holdValue_eq] at hhold
  generalize c.takeValue now id v = taken at hhold htake
  have hbalanced := htake taken rfl
  obtain ⟨e | ⟨⟨⟩⟩, c₁⟩ := taken <;> (cases hhold; exact hbalanced)

theorem create (h : c.Balanced E) (hid : c.items[id]? = none) {kind : Kind}
    {result : Except CacheFailure Unit} (hcreate : c.create now id kind = (result, c')) :
    c'.Balanced E := by
  have hev := charge_evicts c now id Item.entryBytes
  rw [Cache.create] at hcreate
  split at hcreate
  · next c₁ heq =>
    cases hcreate
    rw [heq] at hev
    have hcharged := h.charge heq
    rw [paid, ← Item.charges_empty kind now] at hcharged
    exact (hcharged.checkIn (hev.source_eq.trans hid) .empty).congr (.measure _ _)
  · next e c₁ heq =>
    cases hcreate
    have hcharged := h.charge heq
    rw [add_paid_error] at hcharged
    exact hcharged

end Balanced

end Cache

end HistoryCache
