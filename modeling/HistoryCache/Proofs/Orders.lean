import HistoryCache.Proofs.EvictionRound
import HistoryCache.Proofs.Tallies

/-!
# In whatever order

The bytes that a removal frees depend on what was removed before it, for the last item with a text pays
for the text.  What a row of removals leaves does not depend on the order: the items that are left
determine the pool and what is in use of the budget (`Cache.Balanced.eq_of_items`), and beside the items
and the books a removal changes counts only (`Cache.Prunes`).

* `Cache.Prunes.eq`: removals that leave the same items leave the same cache.
* `Cache.evictIdleIn_perm`, `Cache.makeSpaceIn_perm`, `Cache.resetIn_perm`: one for each function that goes
  through the items.
* `Traffic.any_order_of_met`: all of them together, for whatever is met.
-/

namespace HistoryCache

/-- A pool in which the texts with references are pooled is known by the references. -/
theorem StringPool.eq_of_refs {p q : StringPool} (hp : ∀ s, p.contains s ↔ 0 < p.refs s)
    (hq : ∀ s, q.contains s ↔ 0 < q.refs s) (hrefs : ∀ s, p.refs s = q.refs s) : p = q := by
  have hsome : ∀ {p : StringPool}, (∀ s, p.contains s ↔ 0 < p.refs s) →
      ∀ s, p.counts[s]? = if 0 < p.refs s then some (p.refs s) else none := by
    intro p hp s
    split
    · next hpos =>
      obtain ⟨n, hn⟩ := contains_iff.1 ((hp s).2 hpos)
      rw [hn, refs_of_some hn]
    · next hzero =>
      cases hn : p.counts[s]? with
      | none => rfl
      | some n => exact absurd ((hp s).1 (contains_iff.2 ⟨n, hn⟩)) hzero
  have hcounts : p.counts = q.counts := by
    apply Std.ExtTreeMap.ext_getElem?
    intro s
    rw [hsome hp, hsome hq, hrefs]
  cases p
  cases q
  exact congrArg StringPool.mk hcounts

namespace Cache

/-- **The items** determine the books. -/
theorem Balanced.eq_of_items {c c' : Cache} {E : Charges} (h : c.Balanced E) (h' : c'.Balanced E)
    (hitems : c.items = c'.items) : c.strings = c'.strings ∧ c.budget.used = c'.budget.used ∧
      c.budget.allocations = c'.budget.allocations := by
  have hheld : c.held = c'.held := held_congr hitems
  have hstrings : c.strings = c'.strings := by
    apply StringPool.eq_of_refs h.balances.pooled h'.balances.pooled
    intro s
    rw [h.balances.refs, h'.balances.refs, hheld]
  refine ⟨hstrings, ?_, ?_⟩
  · rw [h.balances.used, h'.balances.used, hheld, hstrings]
  · rw [h.balances.allocations, h'.balances.allocations, hheld, hstrings]

/-! ## What removals leave -/

/-- A cache with the items and the books of another, and with the gauge of its items.  `n` more idle items
were evicted. -/
def pruned (c c' : Cache) (n : Nat) : Cache :=
  { c with
    items := c'.items
    strings := c'.strings
    budget := { c.budget with used := c'.budget.used, allocations := c'.budget.allocations }
    telemetry := c.telemetry.measure fun m =>
      { m with items := c'.gauge, evictedExpired := m.evictedExpired + n } }

theorem pruned_pruned (c c' c'' : Cache) (n m : Nat) :
    (c.pruned c' n).pruned c'' m = c.pruned c'' (n + m) := by
  simp only [pruned, Telemetry.measure, Nat.add_assoc]

theorem Books.budget_eq {c c' : Cache} (h : Books c c') : c'.budget =
    { c.budget with used := c'.budget.used, allocations := c'.budget.allocations } := by
  have htotal := h.total
  have hhigh := h.high
  have hrefused := h.refused
  cases hbudget : c'.budget
  simp_all

theorem Books.pruned {c c' : Cache} (h : Books c c') : c' = c.pruned c' 0 := by
  have hgauge : c'.gauge = c.gauge := (Still.books h).gauge
  have hbudget := h.budget_eq
  rw [Cache.pruned, h.items, ← hbudget, hgauge]
  exact h.rest

/-- Nothing changes but the items and the books, the gauge of the items, and the count of the idle items
that were evicted, `n` of them. -/
structure Prunes (n : Nat) (c c' : Cache) : Prop where
  rest : c' = c.pruned c' n
  tallies : Tallies c c'

namespace Prunes

variable {n m : Nat} {c c' c'' : Cache}

theorem refl : Prunes 0 c c := ⟨rfl, .refl⟩

theorem trans (h : Prunes n c c') (k : Prunes m c' c'') : Prunes (n + m) c c'' where
  rest := calc
    c'' = c'.pruned c'' m := k.rest
    _ = (c.pruned c' n).pruned c'' m := by rw [← h.rest]
    _ = c.pruned c'' (n + m) := pruned_pruned c c' c'' n m
  tallies := h.tallies.trans k.tallies

/-- **Removals that leave the same items** leave the same cache. -/
theorem eq {E : Charges} (h : Prunes n c c') (k : Prunes n c c'') (hitems : c'.items = c''.items)
    (hb : c'.Balanced E) (hb' : c''.Balanced E) : c' = c'' := by
  obtain ⟨hstrings, hused, hallocations⟩ := hb.eq_of_items hb' hitems
  have hgauge : c'.gauge = c''.gauge := by
    have hids : c'.ids = c''.ids := by rw [ids, ids, hitems]
    have hsize : c'.items.size = c''.items.size := by rw [hitems]
    rcases h.tallies.items with ⟨hsame, hgauge⟩ | ⟨hless, hgauge⟩
    · rcases k.tallies.items with ⟨-, hgauge'⟩ | ⟨hless', -⟩
      · rw [hgauge, hgauge']
      · rw [← length_ids, ← length_ids, ← hids, hsame] at hless'
        exact absurd hless' (Nat.lt_irrefl _)
    · rcases k.tallies.items with ⟨hsame', -⟩ | ⟨-, hgauge'⟩
      · rw [← length_ids, ← length_ids, hids, hsame'] at hless
        exact absurd hless (Nat.lt_irrefl _)
      · rw [hgauge, hgauge', hsize]
  calc
    c' = c.pruned c' n := h.rest
    _ = c.pruned c'' n := by rw [pruned, pruned, hitems, hstrings, hused, hallocations, hgauge]
    _ = c'' := k.rest.symm

theorem remove (c : Cache) (id : ItemId) : Prunes 0 c (c.remove id).2 := by
  refine ⟨?_, .remove c id⟩
  rw [Cache.remove]
  cases hid : c.items[id]? with
  | none => rfl
  | some item =>
    have hreleased := Books.release (c.checkOut id) item.history.releaseAll
    simp only []
    generalize (c.checkOut id).release item.history.releaseAll = released at hreleased
    have hbooks := hreleased.trans (.refund released.2 Item.entryBytes)
    generalize released.2.refund Item.entryBytes = c₁ at hbooks
    calc
      c₁.measureItems = ((c.checkOut id).pruned c₁ 0).measureItems := by rw [← hbooks.pruned]
      _ = c.pruned c₁.measureItems 0 := rfl

theorem requestRemoval (c : Cache) (id : ItemId) : Prunes 0 c (c.requestRemoval id) := by
  refine ⟨?_, .requestRemoval c id⟩
  rw [Cache.requestRemoval]
  cases hid : c.items[id]? with
  | none => rfl
  | some item =>
    simp only []
    split
    · rfl
    · exact (remove c id).rest

theorem removals (ids : List ItemId) (c : Cache) : Prunes 0 c (ids.foldl Cache.requestRemoval c) := by
  induction ids generalizing c with
  | nil => exact refl
  | cons id ids ih => exact (requestRemoval c id).trans (ih _)

theorem evict (id : ItemId) (c : Cache) : Prunes 1 c (Cache.evict .expired id c).2 where
  rest := calc
    (Cache.evict .expired id c).2 = (c.remove id).2.measure (·.evicted .expired) := rfl
    _ = (c.pruned (c.remove id).2 0).measure (·.evicted .expired) := by rw [← (remove c id).rest]
    _ = c.pruned (Cache.evict .expired id c).2 1 := rfl
  tallies := .evict .expired id c

theorem evictAll (ids : List ItemId) (c : Cache) :
    Prunes ids.length c (freeAll (Cache.evict .expired) ids c).2 := by
  induction ids generalizing c with
  | nil => exact refl
  | cons id ids ih =>
    rw [List.length_cons, Nat.add_comm]
    exact (evict id c).trans (ih _)

end Prunes

/-! ## Going through the items -/

section

variable {c : Cache} {E : Charges} {order order' : List ItemId}

theorem frees_perm {ids ids' : List ItemId} (h : ids.Perm ids') : c.frees ids = c.frees ids' := by
  have hitems : (c.itemsOf ids).Perm (c.itemsOf ids') := h.filterMap _
  have htexts : ∀ s, ((c.itemsOf ids).flatMap Item.texts).count s =
      ((c.itemsOf ids').flatMap Item.texts).count s := fun s => (hitems.flatMap_right _).count_eq s
  rw [frees, frees, (hitems.flatMap_right Item.sizes).sum_eq]
  simp only [htexts]

/-- Idle items are evicted in whatever order, and what is freed is the same. -/
theorem evictIdleIn_perm (hb : c.Balanced E) (horder : order.Perm c.ids) (horder' : order'.Perm c.ids)
    (source : ItemId) (before : Int) :
    c.evictIdleIn order source before = c.evictIdleIn order' source before := by
  have hidle : (order.filter (c.idle source before)).Perm (order'.filter (c.idle source before)) :=
    (horder.trans horder'.symm).filter _
  have hprunes : ∀ order : List ItemId, Prunes (order.filter (c.idle source before)).length c
      (c.evictIdleIn order source before).2 := fun order => .evictAll _ c
  have hleft := sheds_evictIdleIn hb horder source before
  have hleft' := sheds_evictIdleIn hb horder' source before
  have hprunes' := hprunes order'
  rw [← hidle.length_eq] at hprunes'
  refine Prod.ext ?_ ((hprunes order).eq hprunes' ?_ hleft.balanced hleft'.balanced)
  · rw [hleft.freed_eq hb, hleft'.freed_eq hb, frees_perm hidle]
  · apply Std.ExtTreeMap.ext_getElem?
    intro id
    rw [hleft.items, hleft'.items]
    simp only [hidle.mem_iff]

/-- Items are weighed in whatever order. -/
theorem byWeightIn_eq_of_perm (h : order.Perm order') (source : ItemId) :
    c.byWeightIn order source = c.byWeightIn order' source := by
  have hperm : (c.byWeightIn order source).Perm (c.byWeightIn order' source) :=
    (byWeightIn_perm c order source).trans ((h.filter _).trans (byWeightIn_perm c order' source).symm)
  refine hperm.eq_of_pairwise (fun i j hi hj hij hji => ?_) (byWeightIn_pairwise c order source)
    (byWeightIn_pairwise c order' source)
  obtain ⟨-, a, ha, -⟩ := evictable_iff.1 (mem_byWeightIn hi)
  obtain ⟨-, b, hb, -⟩ := evictable_iff.1 (mem_byWeightIn hj)
  have hle := lighter_iff.1 (hij a b ha hb)
  have hge := lighter_iff.1 (hji b a hb ha)
  exact Nat.le_antisymm (by omega) (by omega)

/-- Space is made in whatever order. -/
theorem makeSpaceIn_perm (hb : c.Balanced E) (horder : order.Perm c.ids) (horder' : order'.Perm c.ids)
    (looks : Looks) (source : ItemId) (size : Nat) :
    c.makeSpaceIn order looks source size = c.makeSpaceIn order' looks source size := by
  rw [makeSpaceIn, makeSpaceIn, evictIdleIn_perm hb horder horder']
  simp only [byWeightIn_eq_of_perm (horder.trans horder'.symm)]

/-- Items are removed, or left to those who hold them, in whatever order. -/
theorem resetIn_perm (hb : c.Balanced E) (horder : order.Perm c.ids) (horder' : order'.Perm c.ids) :
    c.resetIn order = c.resetIn order' := by
  have hbalanced : ∀ (ids : List ItemId) {c : Cache}, c.Balanced E →
      (ids.foldl requestRemoval c).Balanced E := by
    intro ids
    induction ids with
    | nil => exact fun h => h
    | cons id ids ih => exact fun h => ih (h.requestRemoval id)
  have hsame : order.foldl requestRemoval c = order'.foldl requestRemoval c := by
    refine (Prunes.removals order c).eq (.removals order' c) ?_ (hbalanced order hb) (hbalanced order' hb)
    apply Std.ExtTreeMap.ext_getElem?
    intro id
    rw [getElem?_removals (nodup_of_perm_ids horder), getElem?_removals (nodup_of_perm_ids horder')]
    simp only [horder.mem_iff, horder'.mem_iff]
  rw [resetIn, resetIn, hsame]

end

end Cache

namespace Traffic

/-- **Whatever the order** in which the items are listed, evicting the idle ones, making space and a reset
leave the same cache, and the idle ones free the same number of bytes. -/
theorem any_order_of_met {config : Config} {c : Cache} (hc : Met config c) {order order' : List ItemId}
    (horder : order.Perm c.ids) (horder' : order'.Perm c.ids) :
    (∀ source before, c.evictIdleIn order source before = c.evictIdleIn order' source before) ∧
    (∀ looks source size,
      c.makeSpaceIn order looks source size = c.makeSpaceIn order' looks source size) ∧
    c.resetIn order = c.resetIn order' := by
  obtain ⟨-, E, hb, -⟩ := hc.afloat
  exact ⟨Cache.evictIdleIn_perm hb horder horder', Cache.makeSpaceIn_perm hb horder horder',
    Cache.resetIn_perm hb horder horder'⟩

/-- Two items have a text in common, which the last of them to go pays for: the amounts depend on the order,
and their sum does not. -/
theorem any_order_two_texts : ∃ c, Met {} c ∧ [7, 8].Perm c.ids ∧ [8, 7].Perm c.ids ∧
    ((c.remove 8).2.remove 7).1 = (c.remove 7).1 + StringPool.entryBytes "on" ∧
    c.evictIdleIn [7, 8] 9 2000 = c.evictIdleIn [8, 7] 9 2000 ∧
    c.makeSpaceIn [7, 8] ⟨2000, 2010⟩ 9 1 = c.makeSpaceIn [8, 7] ⟨2000, 2010⟩ 9 1 ∧
    c.resetIn [7, 8] = c.resetIn [8, 7] := by
  have hmet : Met {} twoTextsService.cache := .rest ⟨twoTextsService, []⟩ possible_twoTextsService (by cbv)
  have hids : twoTextsService.cache.ids = [7, 8] := by cbv
  have horder : [7, 8].Perm twoTextsService.cache.ids := by rw [hids]
  have horder' : [8, 7].Perm twoTextsService.cache.ids := by
    rw [hids]
    exact .swap 7 8 []
  have hlast : ((twoTextsService.cache.remove 8).2.remove 7).1 =
      (twoTextsService.cache.remove 7).1 + StringPool.entryBytes "on" := by cbv
  obtain ⟨hidle, hspace, hreset⟩ := any_order_of_met hmet horder horder'
  exact ⟨_, hmet, horder, horder', hlast, hidle 9 2000, hspace ⟨2000, 2010⟩ 9 1, hreset⟩

end Traffic

end HistoryCache
