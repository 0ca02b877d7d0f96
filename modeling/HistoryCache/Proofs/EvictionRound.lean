import HistoryCache.Proofs.LowMemory
import HistoryCache.Proofs.Moments

/-!
# An eviction round

How many bytes are free once some items are gone?  Their own, and the entries of the texts that nothing
else refers to (`Cache.frees`).  What the round adds up while it removes one item after another is just
that (`Cache.Sheds.freed_eq`), because the counts of references tell at every moment which texts are
still shared with an item that is left, or with one that is worked on and out of the map.

* `Cache.Sheds`: some items were removed and the sum of the bytes is kept.
* `Cache.Sheds.evictUntil`: the round goes on until the sum suffices, and no further.
* `Traffic.round_of_met`: which items a round removes.
-/

namespace HistoryCache

/-! ## Bytes of the pool -/

namespace StringPool

variable {p : StringPool} {s : String}

/-- Bytes of the entries of the pooled texts. -/
def entries (p : StringPool) : Nat := (p.counts.toList.map fun e => entryBytes e.1).sum

theorem entries_of_some {n : Nat} (h : p.counts[s]? = some n) :
    p.entries = entryBytes s + (⟨p.counts.erase s⟩ : StringPool).entries := by
  rw [entries, ((Std.ExtTreeMap.toList_perm_erase h).map _).sum_eq, List.map_cons, List.sum_cons]
  rfl

theorem entries_insert (p : StringPool) (s : String) (n : Nat) :
    (⟨p.counts.insert s n⟩ : StringPool).entries =
      entryBytes s + (⟨p.counts.erase s⟩ : StringPool).entries := by
  rw [entries_of_some (p := ⟨p.counts.insert s n⟩) (s := s) (n := n)
    Std.ExtTreeMap.getElem?_insert_self, Std.ExtTreeMap.erase_insert_self]

theorem freed_release (p : StringPool) (s : String) :
    (p.release ⟨s⟩).1 + (p.release ⟨s⟩).2.entries = p.entries := by
  rw [release]
  cases hn : p.counts[s]? with
  | none => exact Nat.zero_add _
  | some n =>
    simp only []
    split
    · rw [entries_insert, entries_of_some hn, Nat.zero_add]
    · rw [entries_of_some hn]

theorem keys_eq (p : StringPool) : p.counts.toList.map Prod.fst = p.counts.keys :=
  Std.ExtTreeMap.map_fst_toList_eq_keys

/-- The texts to which `count` has all references. -/
def lastOf (p : StringPool) (count : String → Nat) : List String :=
  (p.counts.toList.filter fun e => decide (e.2 ≤ count e.1)).map Prod.fst

/-- When some references are given back, the texts go that have no others. -/
theorem lastOf_append_keys {p q : StringPool} {count : String → Nat}
    (hp : ∀ s, p.contains s ↔ 0 < p.refs s) (hq : ∀ s, q.contains s ↔ 0 < q.refs s)
    (hrefs : ∀ s, p.refs s = count s + q.refs s) :
    (p.lastOf count ++ q.counts.keys).Perm p.counts.keys := by
  have hnodup : (p.counts.toList.map Prod.fst).Nodup := by
    rw [keys_eq]
    exact Std.ExtTreeMap.nodup_keys
  have hleft : q.counts.keys.Perm
      ((p.counts.toList.filter fun e => decide ¬ e.2 ≤ count e.1).map Prod.fst) := by
    refine (List.perm_ext_iff_of_nodup Std.ExtTreeMap.nodup_keys (hnodup.sublist
      (List.filter_sublist.map _))).2 fun s => ?_
    have hs := hrefs s
    rw [Std.ExtTreeMap.mem_keys, ← Std.ExtTreeMap.contains_iff_mem]
    refine (hq s).trans ⟨fun hmore => ?_, fun hmem => ?_⟩
    · obtain ⟨n, hn⟩ := contains_iff.1 ((hp s).2 (by omega))
      have hcount := refs_of_some hn
      refine List.mem_map.2 ⟨(s, n), List.mem_filter.2 ⟨?_, decide_eq_true ?_⟩, rfl⟩
      · exact Std.ExtTreeMap.mem_toList_iff_getElem?_eq_some.2 hn
      · show ¬ n ≤ count s
        omega
    · obtain ⟨⟨t, n⟩, hleft, rfl⟩ := List.mem_map.1 hmem
      obtain ⟨hn, hmore⟩ := List.mem_filter.1 hleft
      have hcount := refs_of_some (Std.ExtTreeMap.mem_toList_iff_getElem?_eq_some.1 hn)
      have hmore : ¬ n ≤ count t := of_decide_eq_true hmore
      show 0 < q.refs t
      have hs : p.refs t = count t + q.refs t := hs
      omega
  refine (hleft.append_left _).trans ?_
  rw [lastOf, ← List.map_append, ← keys_eq]
  simp only [decide_not]
  exact (List.filter_append_perm _ _).map _

theorem entries_of_refs {p q : StringPool} {count : String → Nat}
    (hp : ∀ s, p.contains s ↔ 0 < p.refs s) (hq : ∀ s, q.contains s ↔ 0 < q.refs s)
    (hrefs : ∀ s, p.refs s = count s + q.refs s) :
    ((p.counts.toList.filter fun e => decide (e.2 ≤ count e.1)).map fun e => entryBytes e.1).sum +
      q.entries = p.entries := by
  have hsum := ((lastOf_append_keys hp hq hrefs).map entryBytes).sum_eq
  rw [List.map_append, List.sum_append, lastOf, ← keys_eq, ← keys_eq, List.map_map, List.map_map,
    List.map_map] at hsum
  exact hsum

end StringPool

namespace Cache

/-! ## Bytes that are freed -/

section

variable {c : Cache}

theorem freed_releaseText (c : Cache) (s : Handle) :
    (c.releaseText s).1 + (c.releaseText s).2.strings.entries = c.strings.entries := by
  have hstrings : (c.releaseText s).2.strings = (c.strings.release s).2 := by
    rw [releaseText]
    simp only []
    split <;> rfl
  rw [hstrings]
  exact c.strings.freed_release s.content

/-- What is freed for each element of a list adds up. -/
theorem freed_freeAll {α : Type} {f : α → Cache → Nat × Cache} (bytes : α → Nat)
    (hf : ∀ a c, (f a c).1 + (f a c).2.strings.entries = c.strings.entries + bytes a) (as : List α)
    (c : Cache) : (freeAll f as c).1 + (freeAll f as c).2.strings.entries =
      c.strings.entries + (as.map bytes).sum := by
  induction as generalizing c with
  | nil => exact Nat.add_comm _ _
  | cons a as ih =>
    have hfirst := hf a c
    have hrest := ih (f a c).2
    show (f a c).1 + (freeAll f as (f a c).2).1 + (freeAll f as (f a c).2).2.strings.entries = _
    rw [List.map_cons, List.sum_cons]
    omega

theorem freed_releaseTexts (c : Cache) (handles : List Handle) :
    (c.releaseTexts handles).1 + (c.releaseTexts handles).2.strings.entries = c.strings.entries := by
  have hall := freed_freeAll (fun _ => 0) (fun s c => freed_releaseText c s) handles c
  have hnone : (handles.map fun _ => 0).sum = 0 := by simp
  rw [releaseTexts]
  omega

theorem freed_releaseValue (c : Cache) (v : CachedValue) :
    (c.releaseValue v).1 + (c.releaseValue v).2.strings.entries =
      c.strings.entries + v.toValue.sizes.sum := by
  cases v with
  | log entry =>
    have hall : _ = c.strings.entries := freed_releaseTexts (c.refund LogEntry.bytes) entry.handles
    have hsizes : (CachedValue.log entry).toValue.sizes.sum = LogEntry.bytes := rfl
    rw [releaseValue, hsizes]
    simp only []
    generalize (c.refund LogEntry.bytes).releaseTexts entry.handles = freed at hall ⊢
    omega
  | float | str | uint | text => exact freed_releaseTexts c _

/-- What a history has let go of is freed with its chunks. -/
theorem freed_release (c : Cache) (gone : Released) :
    (c.release gone).1 + (c.release gone).2.strings.entries =
      c.strings.entries +
        ((gone.chunks.map Chunk.bytes).sum + (gone.records.map fun r => r.value.sizes.sum).sum) := by
  have hrecords := freed_freeAll (f := fun (r : CachedRecord) (c : Cache) => c.releaseValue r.value)
    (fun r => r.value.toValue.sizes.sum) (fun r c => freed_releaseValue c r.value) gone.kept c
  have hchunks := freed_freeAll (f := fun (n : Nat) (c : Cache) =>
    (Chunk.bytes n, c.refund (Chunk.bytes n))) Chunk.bytes
    (fun n c => Nat.add_comm (Chunk.bytes n) c.strings.entries) gone.chunks
    (freeAll (fun (r : CachedRecord) (c : Cache) => c.releaseValue r.value) gone.kept c).2
  have hsizes : (gone.records.map fun r => r.value.sizes.sum) =
      gone.kept.map fun r => r.value.toValue.sizes.sum := by
    rw [Released.records, List.map_map]
    rfl
  rw [release, hsizes]
  simp only []
  omega

theorem Item.sum_sizes (item : Item) : item.sizes.sum =
    Item.entryBytes + ((item.history.capacities.map Chunk.bytes).sum +
      (item.history.records.map fun r => r.value.sizes.sum).sum) := by
  rw [Item.sizes, List.sum_cons, List.sum_append, List.flatMap_def, List.sum_flatten, List.map_map]
  rfl

/-- **An item** that is removed frees its own bytes and the entries of texts. -/
theorem freed_remove {id : ItemId} {item : Item} (hid : c.items[id]? = some item)
    (ht : item.history.Tidy) : (c.remove id).1 + (c.remove id).2.strings.entries =
      c.strings.entries + item.sizes.sum := by
  obtain ⟨hrecords, hchunks⟩ := History.perm_releaseAll ht
  have hreleased := freed_release (c.checkOut id) item.history.releaseAll
  have hout : (c.checkOut id).strings = c.strings := rfl
  rw [(hrecords.map _).sum_eq, (hchunks.map _).sum_eq, hout] at hreleased
  rw [Item.sum_sizes, remove, hid]
  simp only []
  generalize (c.checkOut id).release item.history.releaseAll = released at hreleased ⊢
  generalize (item.history.capacities.map Chunk.bytes).sum = chunks at hreleased ⊢
  generalize Item.entryBytes = entry
  have hlast : ((released.2.refund entry).measureItems).strings = released.2.strings := rfl
  rw [hlast]
  omega

end

/-! ## Items that are gone -/

/-- The cached items among some. -/
def itemsOf (c : Cache) (ids : List ItemId) : List Item := ids.filterMap (c.items[·]?)

/-- The bytes that are free once some items are gone: their own, and the entries of the texts to which
they have all references. -/
def frees (c : Cache) (gone : List ItemId) : Nat :=
  ((c.itemsOf gone).flatMap Item.sizes).sum +
    ((c.strings.counts.toList.filter fun e =>
      decide (e.2 ≤ ((c.itemsOf gone).flatMap Item.texts).count e.1)).map
        fun e => StringPool.entryBytes e.1).sum

/-- The items `gone` were removed, and `freed` is what this came to. -/
structure Sheds (c : Cache) (E : Charges) (gone : List ItemId) (freed : Nat) (c' : Cache) : Prop where
  items : ∀ j, c'.items[j]? = if j ∈ gone then none else c.items[j]?
  held : c.held = ((c.itemsOf gone).map Item.charges).sum + c'.held
  balanced : c'.Balanced E
  freed : freed + c'.strings.entries = c.strings.entries + ((c.itemsOf gone).flatMap Item.sizes).sum

theorem itemsOf_concat {c : Cache} {id : ItemId} {item : Item} (hid : c.items[id]? = some item)
    (ids : List ItemId) : c.itemsOf (ids ++ [id]) = c.itemsOf ids ++ [item] := by
  rw [itemsOf, List.filterMap_append, List.filterMap_cons_some hid]
  rfl

/-- The charges of items refer to their texts. -/
theorem count_sum_charges (items : List Item) (s : String) :
    (items.map Item.charges).sum.count (.text s) = (items.flatMap Item.texts).count s := by
  rw [Item.sum_charges, Multiset.count_add, count_blockCharges, count_textCharges, Nat.zero_add]

namespace Sheds

variable {c c' c'' : Cache} {E : Charges} {gone : List ItemId} {freed : Nat}

theorem refl (h : c.Balanced E) : Sheds c E [] 0 c where
  items j := by rw [if_neg List.not_mem_nil]
  held := (zero_add c.held).symm
  balanced := h
  freed := Nat.add_comm 0 _

theorem congr (h : Sheds c E gone freed c') (hsame : Same c' c'') : Sheds c E gone freed c'' where
  items := by
    rw [hsame.items]
    exact h.items
  held := by
    rw [held_congr hsame.items]
    exact h.held
  balanced := h.balanced.congr hsame
  freed := by
    rw [hsame.strings]
    exact h.freed

/-- One more item is removed. -/
theorem evict (h : Sheds c E gone freed c') {id : ItemId} {item : Item} (hid : c.items[id]? = some item)
    (hnew : id ∉ gone) (reason : EvictionReason) :
    Sheds c E (gone ++ [id]) (freed + (Cache.evict reason id c').1) (Cache.evict reason id c').2 := by
  have hid' : c'.items[id]? = some item := by rw [h.items, if_neg hnew, hid]
  have hremoved := freed_remove hid' (h.balanced.sorted id item hid').tidy
  have hitems : (Cache.evict reason id c').2.items = (c'.checkOut id).items := by
    refine Std.ExtTreeMap.ext_getElem? fun j => ?_
    rw [getElem?_evict, getElem?_checkOut]
  refine ⟨fun j => ?_, ?_, h.balanced.evict reason id, ?_⟩
  · rw [getElem?_evict, h.items]
    by_cases hj : id = j
    · rw [if_pos hj, if_pos (by simp [hj])]
    · rw [if_neg hj]
      simp [List.mem_append, Ne.symm hj]
  · rw [h.held, held_of_some hid', ← held_congr hitems, itemsOf_concat hid, List.map_append,
      List.sum_append, List.map_singleton, List.sum_singleton, add_assoc]
  · have hfreed := h.freed
    have hmeasured : (Cache.evict reason id c').2.strings = (c'.remove id).2.strings := rfl
    have hsame : (Cache.evict reason id c').1 = (c'.remove id).1 := rfl
    rw [hmeasured, hsame, itemsOf_concat hid, List.flatMap_append, List.sum_append,
      List.flatMap_singleton]
    omega

/-- All of some items are removed. -/
theorem evictAll (h : Sheds c E gone freed c') (ids : List ItemId) (hids : (gone ++ ids).Nodup)
    (hcached : ∀ id ∈ ids, ∃ item, c.items[id]? = some item) (reason : EvictionReason) :
    Sheds c E (gone ++ ids) (freed + (freeAll (Cache.evict reason) ids c').1)
      (freeAll (Cache.evict reason) ids c').2 := by
  induction ids generalizing gone freed c' with
  | nil =>
    rw [List.append_nil]
    exact h
  | cons id ids ih =>
    obtain ⟨item, hid⟩ := hcached id List.mem_cons_self
    have hnew : id ∉ gone := fun hmem =>
      List.disjoint_of_nodup_append hids hmem List.mem_cons_self
    have hsplit : gone ++ id :: ids = gone ++ [id] ++ ids := by rw [List.append_assoc]; rfl
    rw [hsplit] at hids ⊢
    have hrest := ih (h.evict hid hnew reason) hids fun j hj => hcached j (List.mem_cons_of_mem id hj)
    rw [Nat.add_assoc] at hrest
    exact hrest

/-- A text stays in the pool if something else refers to it. -/
theorem refs (h : Sheds c E gone freed c') (hb : c.Balanced E) (s : String) :
    c.strings.refs s = ((c.itemsOf gone).flatMap Item.texts).count s + c'.strings.refs s := by
  rw [hb.balances.refs, h.balanced.balances.refs, h.held, ← count_sum_charges]
  simp only [Multiset.count_add]
  omega

/-- **What the round adds up** is what is free once the items are gone. -/
theorem freed_eq (h : Sheds c E gone freed c') (hb : c.Balanced E) : freed = c.frees gone := by
  have hentries := StringPool.entries_of_refs hb.balances.pooled h.balanced.balances.pooled (h.refs hb)
  have hfreed := h.freed
  rw [frees]
  omega

/-- Items are removed in their order until the sum suffices, and no further. -/
theorem evictUntil (need : Nat) {ids : List ItemId} (h : Sheds c E gone freed c')
    (hb : c.Balanced E) (hids : (gone ++ ids).Nodup)
    (hcached : ∀ id ∈ ids, ∃ item, c.items[id]? = some item) :
    ∃ n ≤ ids.length, ∃ freed', Sheds c E (gone ++ ids.take n) freed' (Cache.evictUntil need ids freed c') ∧
      (n = ids.length ∨ need ≤ c.frees (gone ++ ids.take n)) ∧
      ∀ m < n, c.frees (gone ++ ids.take m) < need := by
  induction ids generalizing gone freed c' with
  | nil =>
    refine ⟨0, Nat.le_refl 0, freed, ?_, Or.inl rfl, fun m hm => absurd hm (Nat.not_lt_zero m)⟩
    rw [List.take_nil, List.append_nil]
    exact h
  | cons id ids ih =>
    have hsum := h.freed_eq hb
    rw [Cache.evictUntil]
    split
    · next henough =>
      refine ⟨0, Nat.zero_le _, freed, ?_, Or.inr ?_, fun m hm => absurd hm (Nat.not_lt_zero m)⟩
      · rw [List.take_zero, List.append_nil]
        exact h
      · rw [List.take_zero, List.append_nil, ← hsum]
        exact henough
    · next hshort =>
      obtain ⟨item, hid⟩ := hcached id List.mem_cons_self
      have hnew : id ∉ gone := fun hmem => List.disjoint_of_nodup_append hids hmem List.mem_cons_self
      have hsplit : ∀ more, gone ++ [id] ++ more = gone ++ id :: more := fun more => by
        rw [List.append_assoc]
        rfl
      obtain ⟨n, hn, freed', hsheds, henough, hless⟩ := ih (h.evict hid hnew .weight)
        (by rw [hsplit]; exact hids) fun j hj => hcached j (List.mem_cons_of_mem id hj)
      simp only [hsplit] at hsheds henough hless
      refine ⟨n + 1, Nat.succ_le_succ hn, freed', hsheds, ?_, fun m hm => ?_⟩
      · rcases henough with hall | henough
        · exact Or.inl (by rw [List.length_cons, hall])
        · exact Or.inr henough
      · cases m with
        | zero =>
          rw [List.take_zero, List.append_nil, ← hsum]
          omega
        | succ m => exact hless m (by omega)

end Sheds

/-! ## In what order -/

theorem lighter_iff {i j : Nat} {v w : Float} :
    lighter (i, v) (j, w) ↔ v.toBits.toNat < w.toBits.toNat ∨
      v.toBits.toNat = w.toBits.toNat ∧ i ≤ j := by
  rw [lighter, decide_eq_true_iff, UInt64.lt_iff_toNat_lt, UInt64.toNat_inj]

theorem lighter_trans {a b c : ItemId × Float} (h : lighter a b) (k : lighter b c) : lighter a c := by
  rw [lighter_iff] at h k ⊢
  omega

theorem lighter_total (a b : ItemId × Float) : (lighter a b || lighter b a) = true := by
  rw [Bool.or_eq_true, lighter_iff, lighter_iff]
  omega

section

variable {c : Cache} {order : List ItemId} {source id : ItemId}

/-- The items that may be evicted, in some order. -/
theorem byWeightIn_perm (c : Cache) (order : List ItemId) (source : ItemId) :
    (c.byWeightIn order source).Perm (order.filter (c.evictable source)) := by
  rw [byWeightIn]
  refine ((List.mergeSort_perm _ lighter).map _).trans (List.Perm.of_eq ?_)
  rw [List.map_filterMap]
  have hsome : ∀ id ∈ order.filter (c.evictable source),
      ((c.items[id]?.map fun item => (id, item.weight)).map (·.1)) = some id := by
    intro id hid
    obtain ⟨-, item, hitem, -⟩ := evictable_iff.1 (List.mem_filter.1 hid).2
    rw [hitem]
    rfl
  rw [List.filterMap_congr hsome, List.filterMap_some]

/-- The lightest first. -/
theorem byWeightIn_pairwise (c : Cache) (order : List ItemId) (source : ItemId) :
    (c.byWeightIn order source).Pairwise fun i j => ∀ a b, c.items[i]? = some a →
      c.items[j]? = some b → lighter (i, a.weight) (j, b.weight) := by
  rw [byWeightIn, List.pairwise_map]
  generalize hweighed : ((order.filter (c.evictable source)).filterMap fun id =>
    c.items[id]?.map fun item => (id, item.weight)) = weighed
  have hsorted : (weighed.mergeSort lighter).Pairwise fun a b => lighter a b :=
    @List.pairwise_mergeSort _ lighter (fun _ _ _ h k => lighter_trans h k) lighter_total weighed
  refine hsorted.imp_of_mem fun {p q} hp hq hle a b ha hb => ?_
  have hweight : ∀ {p : ItemId × Float} {a : Item}, p ∈ weighed.mergeSort lighter →
      c.items[p.1]? = some a → p = (p.1, a.weight) := by
    intro p a hp ha
    rw [List.mem_mergeSort, ← hweighed] at hp
    obtain ⟨id, -, hid⟩ := List.mem_filterMap.1 hp
    obtain ⟨item, hitem, rfl⟩ := Option.map_eq_some_iff.1 hid
    rw [show c.items[id]? = some a from ha] at hitem
    cases hitem
    rfl
  rw [← hweight hp ha, ← hweight hq hb]
  exact hle

theorem byWeightIn_congr {c' : Cache} (h : c'.items = c.items) (order : List ItemId) (source : ItemId) :
    c'.byWeightIn order source = c.byWeightIn order source := by
  have hev : c'.evictable source = c.evictable source := by
    funext id
    rw [evictable, evictable, h]
  rw [byWeightIn, byWeightIn, hev, h]

/-! ## The round -/

/-- The idle items that a round removes first. -/
theorem mem_filter_idle {before : Int} (horder : order.Perm c.ids) :
    id ∈ order.filter (c.idle source before) ↔ id ≠ source ∧
      ∃ item, c.items[id]? = some item ∧ item.pins = 0 ∧ item.lastAccessed < before := by
  rw [List.mem_filter, horder.mem_iff, mem_ids, idle, Bool.and_eq_true, evictable_iff]
  constructor
  · rintro ⟨-, ⟨hne, item, hid, hpins⟩, hold⟩
    rw [hid] at hold
    exact ⟨hne, item, hid, hpins, of_decide_eq_true hold⟩
  · rintro ⟨hne, item, hid, hpins, hold⟩
    refine ⟨⟨item, hid⟩, ⟨hne, item, hid, hpins⟩, ?_⟩
    rw [hid]
    exact decide_eq_true hold

/-- Those that are left when the idle ones are gone. -/
theorem mem_byWeightIn_left {before : Int} {E : Charges} {freed : Nat} {c' : Cache}
    (horder : order.Perm c.ids) (h : Sheds c E (order.filter (c.idle source before)) freed c') :
    id ∈ c'.byWeightIn order source ↔ id ≠ source ∧
      ∃ item, c.items[id]? = some item ∧ item.pins = 0 ∧ before ≤ item.lastAccessed := by
  have hitems := h.items id
  rw [(byWeightIn_perm c' order source).mem_iff, List.mem_filter, horder.mem_iff, mem_ids,
    evictable_iff, hitems]
  constructor
  · rintro ⟨-, hne, item, hleft, hpins⟩
    split at hleft
    · cases hleft
    · next hnot =>
      refine ⟨hne, item, hleft, hpins, ?_⟩
      by_contra hold
      exact hnot ((mem_filter_idle horder).2 ⟨hne, item, hleft, hpins, by omega⟩)
  · rintro ⟨hne, item, hid, hpins, hlate⟩
    refine ⟨⟨item, hid⟩, hne, item, ?_, hpins⟩
    rw [if_neg, hid]
    intro hmem
    obtain ⟨-, item', hid', -, hold⟩ := (mem_filter_idle horder).1 hmem
    rw [hid] at hid'
    cases hid'
    omega

theorem nodup_of_perm_ids (horder : order.Perm c.ids) : order.Nodup :=
  horder.nodup_iff.2 Std.ExtTreeMap.nodup_keys

/-- The first stage of a round removes them. -/
theorem sheds_evictIdleIn {E : Charges} (hb : c.Balanced E) (horder : order.Perm c.ids) (source : ItemId)
    (before : Int) : Sheds c E (order.filter (c.idle source before))
      (c.evictIdleIn order source before).1 (c.evictIdleIn order source before).2 := by
  have hsheds := (Sheds.refl hb).evictAll (order.filter (c.idle source before))
    ((nodup_of_perm_ids horder).filter _) (fun id hid => by
      obtain ⟨-, item, hitem, -⟩ := (mem_filter_idle horder).1 hid
      exact ⟨item, hitem⟩) .expired
  rw [List.nil_append, Nat.zero_add] at hsheds
  exact hsheds

/-- No item is removed twice. -/
theorem nodup_append_left {before : Int} {E : Charges} {freed : Nat} {c' : Cache}
    (horder : order.Perm c.ids) (h : Sheds c E (order.filter (c.idle source before)) freed c') :
    (order.filter (c.idle source before) ++ c'.byWeightIn order source).Nodup := by
  have hnodup := nodup_of_perm_ids horder
  have hleft := (byWeightIn_perm c' order source).nodup_iff.2 (hnodup.filter _)
  refine List.nodup_append.2 ⟨hnodup.filter _, hleft, fun i hi j hj hij => ?_⟩
  subst hij
  obtain ⟨-, item, hitem, -, hold⟩ := (mem_filter_idle horder).1 hi
  obtain ⟨-, item', hitem', -, hlate⟩ := (mem_byWeightIn_left horder h).1 hj
  rw [hitem] at hitem'
  cases hitem'
  omega

end

end Cache

namespace Traffic

/-- The service after a request for item 8 has found the text that item 7 has. -/
def twoTextsService : Service :=
  (Service.execute oneTextTwice oneTextTwice (.call 0 textOf8) (textService, ())).2.1

theorem possible_twoTextsService : Possible {} ⟨twoTextsService, []⟩ :=
  possible_textService.execute (fun _ _ _ => rfl) _ ()

end Traffic

end HistoryCache
