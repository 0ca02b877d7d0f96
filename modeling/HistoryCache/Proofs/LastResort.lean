import HistoryCache.Proofs.EvictionRound

/-!
# A charge that fails

An eviction round counts the bytes of what it frees and not the overhead that comes back with each
allocation.  So what is in use falls by more than the round adds up (`Cache.Sheds.used_eq`), and for a
round that frees anything the difference pays for the overhead of one new charge (`Cache.Sheds.fits`).
A charge therefore fails only after a round that fell short, and such a round leaves no item that could
still be evicted.

* `Cache.Sheds.fits`: a round that frees enough makes room.
* `Cache.sheds_makeSpaceIn`: a round frees enough or evicts all that it may.
* `Traffic.charge_of_met`: running out of memory is the last resort.
-/

namespace HistoryCache

namespace StringPool

theorem bytes_eq (p : StringPool) : p.bytes = p.entries + Budget.overhead * p.size := by
  rw [bytes, entries, List.sum_map_add, List.map_const', List.sum_replicate, smul_eq_mul, size,
    Std.ExtTreeMap.length_toList, Nat.mul_comm]

/-- A pool of fewer texts has fewer entries. -/
theorem size_le {p q : StringPool} (h : ∀ s, q.contains s → p.contains s) : q.size ≤ p.size := by
  have hsub : q.counts.keys ⊆ p.counts.keys := by
    intro s hs
    rw [Std.ExtTreeMap.mem_keys, ← Std.ExtTreeMap.contains_iff_mem] at hs ⊢
    exact h s hs
  have hle := (Std.ExtTreeMap.nodup_keys.subperm hsub).length_le
  rwa [Std.ExtTreeMap.length_keys, Std.ExtTreeMap.length_keys] at hle

end StringPool

/-- What items are charged: their allocations, each with its overhead. -/
theorem Item.bytesOf_sum_charges (items : List Item) : bytesOf (items.map charges).sum =
    (items.flatMap sizes).sum + Budget.overhead * blocksOf (items.map charges).sum := by
  rw [sum_charges, bytesOf_add, blocksOf_add, bytesOf_blockCharges, blocksOf_blockCharges,
    bytesOf_textCharges, blocksOf_textCharges, List.sum_map_add, List.map_id', List.map_const',
    List.sum_replicate, smul_eq_mul, Nat.mul_comm]
  rfl

/-- Each item has its entry at least. -/
theorem Item.length_le_blocksOf (items : List Item) : items.length ≤ blocksOf (items.map charges).sum := by
  induction items with
  | nil => exact Nat.zero_le _
  | cons item items ih =>
    rw [List.map_cons, List.sum_cons, blocksOf_add, charges, blocksOf_add, blocksOf_block,
      List.length_cons]
    omega

namespace Cache

namespace Sheds

variable {c c' : Cache} {E : Charges} {gone : List ItemId} {freed : Nat}

/-- The items that go are those that are gone. -/
theorem mem_iff (h : Sheds c E gone freed c') (hcached : ∀ id ∈ gone, ∃ item, c.items[id]? = some item)
    (id : ItemId) : id ∈ gone ↔ (∃ item, c.items[id]? = some item) ∧ c'.items[id]? = none := by
  rw [h.items]
  constructor
  · intro hid
    exact ⟨hcached id hid, if_pos hid⟩
  · rintro ⟨⟨item, hitem⟩, hnone⟩
    by_contra hid
    rw [if_neg hid, hitem] at hnone
    cases hnone

/-- What is in use falls by what is freed, and by the overhead of each allocation that is given
back. -/
theorem used_eq (h : Sheds c E gone freed c') (hb : c.Balanced E) :
    c.budget.used + Budget.overhead * c'.budget.allocations =
      c'.budget.used + freed + Budget.overhead * c.budget.allocations := by
  have hfreed := h.freed
  have hitems := Item.bytesOf_sum_charges (c.itemsOf gone)
  rw [hb.balances.used, h.balanced.balances.used, hb.balances.allocations, h.balanced.balances.allocations,
    h.held, StringPool.bytes_eq, StringPool.bytes_eq]
  simp only [bytesOf_add, blocksOf_add, Nat.mul_add]
  omega

/-- An allocation at least is given back for each item. -/
theorem allocations_le (h : Sheds c E gone freed c') (hb : c.Balanced E) :
    c'.budget.allocations + (c.itemsOf gone).length ≤ c.budget.allocations := by
  have hpool : c'.strings.size ≤ c.strings.size := by
    apply StringPool.size_le
    intro s hs
    rw [h.balanced.balances.pooled] at hs
    rw [hb.balances.pooled, h.refs hb s]
    exact Nat.lt_of_lt_of_le hs (Nat.le_add_left _ _)
  have hblocks := Item.length_le_blocksOf (c.itemsOf gone)
  rw [hb.balances.allocations, h.balanced.balances.allocations, h.held]
  simp only [blocksOf_add]
  omega

/-- Nothing is freed unless an item goes. -/
theorem length_pos (h : Sheds c E gone freed c') (hb : c.Balanced E) (hfreed : 0 < freed) :
    0 < (c.itemsOf gone).length := by
  by_contra hnone
  have hitems : c.itemsOf gone = [] := List.eq_nil_of_length_eq_zero (by omega)
  have hzero : 0 = c.frees [] := (Sheds.refl hb).freed_eq hb
  have hsame : c.frees gone = c.frees [] := by
    rw [frees, frees, hitems]
    rfl
  have hsum := h.freed_eq hb
  omega

/-- **A round that frees enough** makes room for the charge, its overhead included. -/
theorem fits (h : Sheds c E gone freed c') (hb : c.Balanced E) {size : Nat} (hsize : 0 < size)
    (hfreed : size ≤ freed) (htotal : c'.budget.total = c.budget.total) : c'.budget.Fits size := by
  have hused := h.used_eq hb
  have hallocations := h.allocations_le hb
  have hitems := h.length_pos hb (Nat.lt_of_lt_of_le hsize hfreed)
  have hhigh := hb.balances.high
  have hfits := hb.balances.fits
  -- one allocation at least is given back, and its overhead is that of the new one
  have hone : Budget.overhead * (c'.budget.allocations + 1) ≤ Budget.overhead * c.budget.allocations :=
    Nat.mul_le_mul_left _ (by omega)
  rw [Nat.mul_add] at hone
  rw [Budget.Fits, htotal]
  omega

end Sheds

/-- **A round** frees enough, or it evicts every item that it may. -/
theorem sheds_makeSpaceIn {c : Cache} {E : Charges} (hb : c.Balanced E) {order : List ItemId}
    (horder : order.Perm c.ids) (looks : Looks) (source : ItemId) (size : Nat) :
    ∃ gone freed, Sheds c E gone freed (c.makeSpaceIn order looks source size) ∧ gone.Nodup ∧
      (∀ id ∈ gone, c.evictable source id) ∧
      (max size c.leastRelease ≤ freed ∨ ∀ id, c.evictable source id → id ∈ gone) := by
  generalize hbefore : c.expireBefore looks.start = before
  have hnodup := nodup_of_perm_ids horder
  have hidle : ∀ id ∈ order.filter (c.idle source before), c.evictable source id := by
    intro id hid
    obtain ⟨hne, item, hitem, hpins, -⟩ := (mem_filter_idle horder).1 hid
    exact evictable_iff.2 ⟨hne, item, hitem, hpins⟩
  have hcached : ∀ {id}, c.evictable source id → ∃ item, c.items[id]? = some item := by
    intro id hid
    obtain ⟨-, item, hitem, -⟩ := evictable_iff.1 hid
    exact ⟨item, hitem⟩
  have hsheds := sheds_evictIdleIn hb horder source before
  rw [makeSpaceIn, hbefore]
  generalize c.evictIdleIn order source before = evicted at hsheds
  obtain ⟨freed, c₁⟩ := evicted
  simp only [] at hsheds ⊢
  split
  · next henough => exact ⟨_, freed, hsheds, hnodup.filter _, hidle, Or.inl henough⟩
  have hsame := (Same.enterLowMemory c₁ looks.start size).trans (.warnLowMemory _ looks.warning)
  rw [byWeightIn_congr hsame.items]
  generalize (c₁.enterLowMemory looks.start size).warnLowMemory looks.warning = c₂ at hsame
  have hleft : ∀ id ∈ c₁.byWeightIn order source, c.evictable source id := by
    intro id hid
    obtain ⟨hne, item, hitem, hpins, -⟩ := (mem_byWeightIn_left horder hsheds).1 hid
    exact evictable_iff.2 ⟨hne, item, hitem, hpins⟩
  obtain ⟨n, hn, freed', hlast, henough, -⟩ := (hsheds.congr hsame).evictUntil
    (max size c.leastRelease) hb (nodup_append_left horder hsheds) fun id hid => hcached (hleft id hid)
  refine ⟨_, freed', hlast, ?_, ?_, ?_⟩
  · exact (nodup_append_left horder hsheds).sublist
      (List.Sublist.append_left (List.take_sublist n _) _)
  · intro id hid
    rcases List.mem_append.1 hid with hid | hid
    · exact hidle id hid
    · exact hleft id (List.mem_of_mem_take hid)
  · rcases henough with rfl | henough
    · right
      intro id hid
      rw [List.take_length, List.mem_append]
      obtain ⟨hne, item, hitem, hpins⟩ := evictable_iff.1 hid
      by_cases hold : item.lastAccessed < before
      · exact Or.inl ((mem_filter_idle horder).2 ⟨hne, item, hitem, hpins, hold⟩)
      · exact Or.inr ((mem_byWeightIn_left horder hsheds).2 ⟨hne, item, hitem, hpins, by omega⟩)
    · left
      rw [hlast.freed_eq hb]
      exact henough

end Cache

namespace Traffic

/-- **Out of memory** is the last resort, at whatever moment.  A charge fails only if nothing is left
that might be evicted for it, and there is no room all the same.  Whenever the items that went for it
free as many bytes as it is for, it is made. -/
theorem charge_of_met {config : Config} {c : Cache} (hc : Met config c) (now : Int) (source : ItemId)
    {size : Nat} (hsize : 0 < size) {result : Except CacheFailure Unit} {c' : Cache}
    (hcharge : c.charge now source size = (result, c')) :
    (∀ e, result = .error e → e = .outOfMemory size ∧ ¬ c'.budget.Fits size ∧
      ∀ id item, c'.items[id]? = some item → id ≠ source → 0 < item.pins) ∧
    ∃ gone : List ItemId, gone.Nodup ∧
      (∀ id, id ∈ gone ↔ (∃ item, c.items[id]? = some item) ∧ c'.items[id]? = none) ∧
      (size ≤ c.frees gone → result = .ok ()) := by
  obtain ⟨-, E, hb, -⟩ := hc.afloat
  obtain ⟨-, rfl, rfl⟩ | ⟨-, c₁, hround, hcases⟩ := Cache.charge_cases hcharge
  · refine ⟨fun e he => (by cases he), [], List.nodup_nil, fun id => ⟨?_, ?_⟩, fun _ => rfl⟩
    · intro hid
      exact absurd hid List.not_mem_nil
    · rintro ⟨⟨item, hitem⟩, hnone⟩
      cases hitem.symm.trans hnone
  have hb₀ := hb.noteRefusal
  obtain ⟨gone, freed, hsheds, hnodup, hgone, hdone⟩ :=
    Cache.sheds_makeSpaceIn hb₀ (List.Perm.refl _) (c.noteRefusal.looks now) source size
  have htotal : (c.noteRefusal.makeSpace now source size).budget.total = c.noteRefusal.budget.total :=
    (Cache.Turn.round now source size c.noteRefusal).keeps.2
  replace hsheds : Cache.Sheds c.noteRefusal E gone freed (c.noteRefusal.makeSpace now source size) :=
    hsheds.congr ⟨rfl, rfl, rfl⟩
  rw [← hround] at hsheds htotal
  -- the refusal that was noted changes neither the items nor the pool
  have hsum : freed = c.frees gone := hsheds.freed_eq hb₀
  have hitems : ∀ id, c₁.items[id]? = if id ∈ gone then none else c.items[id]? := hsheds.items
  have hleft : ∀ id, id ∈ gone ↔ (∃ item, c.items[id]? = some item) ∧ c₁.items[id]? = none :=
    hsheds.mem_iff fun id hid => by
      obtain ⟨-, item, hitem, -⟩ := Cache.evictable_iff.1 (hgone id hid)
      exact ⟨item, hitem⟩
  obtain ⟨hfits, rfl, rfl⟩ | ⟨hfull, rfl, rfl⟩ := hcases
  · exact ⟨fun e he => (by cases he), gone, hnodup, hleft, fun _ => rfl⟩
  have hshort : ¬ size ≤ freed := by
    intro henough
    exact hfull (hsheds.fits hb₀ hsize henough htotal)
  refine ⟨?_, gone, hnodup, hleft, fun henough => absurd (hsum ▸ henough) hshort⟩
  intro e he
  cases he
  refine ⟨rfl, hfull, fun id item hid hne => ?_⟩
  have hall := hdone.resolve_left fun henough => hshort (by omega)
  change c₁.items[id]? = some item at hid
  rw [hitems] at hid
  split at hid
  · cases hid
  · next hnot =>
    by_contra hpins
    exact hnot (hall id (Cache.evictable_iff.2 ⟨hne, item, hid, by omega⟩))

/-- Two items have a text in common, and more is wanted for one of them than the budget has.  The other
goes in vain. -/
theorem charge_two_texts : ∃ c c', Met {} c ∧ 0 < 2 ^ 40 ∧ (c.items[7]?).isSome ∧ (c.items[8]?).isSome ∧
    c.charge 1000 7 (2 ^ 40) = (.error (.outOfMemory (2 ^ 40)), c') ∧ ¬ c'.budget.Fits (2 ^ 40) ∧
    c'.items[7]? = c.items[7]? ∧ c'.items[8]? = none := by
  have hmet : Met {} twoTextsService.cache := .rest ⟨twoTextsService, []⟩ possible_twoTextsService (by cbv)
  have hseven : (twoTextsService.cache.items[7]?).isSome := by cbv
  have height : (twoTextsService.cache.items[8]?).map Item.pins = some 0 := by cbv
  generalize twoTextsService.cache = c at *
  obtain ⟨hconfigured, E, hb, -⟩ := hmet.afloat
  rcases hcharge : c.charge 1000 7 (2 ^ 40) with ⟨result, c'⟩
  obtain ⟨hfails, -⟩ := charge_of_met hmet 1000 7 (by decide) hcharge
  have hevicts := Cache.charge_evicts c 1000 7 (2 ^ 40)
  have hgoes := Cache.Goes.charge c 1000 7 (2 ^ 40)
  rw [hcharge] at hevicts hgoes
  obtain ⟨item, hitem, hpins⟩ := Option.map_eq_some_iff.1 height
  cases result with
  | ok =>
    -- the budget would have room for more than it is
    have htotal : c'.budget.total = _ := (hgoes.configured hconfigured).2
    have hcharged := (hb.charge hcharge).balances
    have hused := hcharged.used
    have hhigh := hcharged.high
    have hfits := hcharged.fits
    rw [paid, bytesOf_add, bytesOf_add, bytesOf_block] at hused
    have hsize : ({} : Config).size < 2 ^ 40 := by decide
    omega
  | error e =>
    obtain ⟨rfl, hfull, hleft⟩ := hfails e rfl
    refine ⟨c, c', hmet, by decide, hseven, by rw [hitem]; rfl, hcharge, hfull, hevicts.source_eq, ?_⟩
    cases hgone : c'.items[8]? with
    | none => rfl
    | some item' =>
      have hsame := hevicts.of_some hgone
      rw [hitem] at hsame
      cases hsame
      have hheld := hleft 8 item hgone (by decide)
      omega

end Traffic

end HistoryCache
