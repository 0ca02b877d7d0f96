import HistoryCache.Cache.Ingest
import HistoryCache.Cache.Serve
import HistoryCache.Proofs.Growth

/-!
# Steps of the cache

A step of the cache works on one item and does nothing to the others but evict some that nobody
holds (`Cache.Updates`).  For each step this file says what may become of its item, as a relation
between the item before and after, so that what holds of all items is carried through a step by a
look at that relation (`Cache.All.updates`).

* `Item.Leaves`: somebody leaves an item, which may be trimmed or removed then.
* `Item.Offered`: a written record is offered to an item.
* `unpin_spec`, `ingestOne_spec`, `answer_spec`, `start_spec`, `finishFill_spec`: the steps.
-/

namespace HistoryCache

/-- A tidy history in the order of time. -/
structure History.Sorted (h : History) : Prop where
  tidy : h.Tidy
  inOrder : InOrder h.records

theorem History.Sorted.empty : ({} : History).Sorted where
  tidy := .empty
  inOrder := List.Pairwise.nil

namespace Cache

/-- What becomes of the item `id` is `x`, and of the others some may be evicted. -/
def Updates (id : ItemId) (x : Option Item) (c c' : Cache) : Prop :=
  c'.items[id]? = x ∧ ∀ j, j ≠ id → c'.items[j]? = c.items[j]? ∨
    c'.items[j]? = none ∧ ∃ item, c.items[j]? = some item ∧ item.pins = 0

namespace Updates

variable {id : ItemId} {x y : Option Item} {c c' c'' : Cache}

theorem of_getElem? (h : ∀ j, c'.items[j]? = if id = j then x else c.items[j]?) :
    Updates id x c c' :=
  ⟨by rw [h, if_pos rfl], fun j hj => Or.inl (by rw [h, if_neg hj.symm])⟩

theorem of_items (h : c'.items = c.items) : Updates id c.items[id]? c c' :=
  ⟨by rw [h], fun _ _ => Or.inl (by rw [h])⟩

theorem trans (h : Updates id x c c') (k : Updates id y c' c'') : Updates id y c c'' := by
  refine ⟨k.1, fun j hj => ?_⟩
  rcases k.2 j hj with heq | ⟨hnone, item, hitem, hpins⟩
  · rw [heq]
    exact h.2 j hj
  · rcases h.2 j hj with heq | ⟨hnone', -⟩
    · exact Or.inr ⟨hnone, item, by rw [← heq, hitem], hpins⟩
    · rw [hnone'] at hitem
      cases hitem

theorem congr (h : Updates id x c c') (hitems : c''.items = c'.items) : Updates id x c c'' := by
  rw [Updates, hitems]
  exact h

end Updates

theorem Evicts.updates {id : ItemId} {c c' : Cache} (h : Evicts id c c') :
    Updates id c.items[id]? c c' := by
  refine ⟨h.source_eq, fun j _ => ?_⟩
  rcases h j with heq | ⟨hnone, -, hpins⟩
  · exact Or.inl heq
  · exact Or.inr ⟨hnone, hpins⟩

/-- An item is worked on outside the map and put back. -/
theorem Evicts.checkIn {id : ItemId} {c c' : Cache} (h : Evicts id (c.checkOut id) c')
    (item : Item) : Updates id (some item) c (c'.checkIn id item) := by
  refine ⟨by rw [getElem?_checkIn, if_pos rfl], fun j hj => ?_⟩
  rw [getElem?_checkIn, if_neg hj.symm]
  have hj' := h j
  rw [getElem?_checkOut, if_neg hj.symm] at hj'
  rcases hj' with heq | ⟨hnone, -, hpins⟩
  · exact Or.inl heq
  · exact Or.inr ⟨hnone, hpins⟩

/-- All cached items are as `P` says. -/
def All (P : ItemId → Item → Prop) (c : Cache) : Prop :=
  ∀ id item, c.items[id]? = some item → P id item

namespace All

variable {P : ItemId → Item → Prop} {c c' : Cache} {id : ItemId} {x : Option Item}

theorem congr (h : All P c) (hitems : c'.items = c.items) : All P c' := by
  rw [All, hitems]
  exact h

theorem of_updates (hup : Updates id x c c')
    (hrest : ∀ j item, j ≠ id → c.items[j]? = some item → P j item)
    (hx : ∀ item, x = some item → P id item) : All P c' := by
  intro j item hj
  by_cases hid : j = id
  · subst hid
    exact hx item (hup.1.symm.trans hj)
  · rcases hup.2 j hid with heq | ⟨hnone, -⟩
    · exact hrest j item hid (by rw [← heq, hj])
    · rw [hnone] at hj
      cases hj

theorem updates (h : All P c) (hup : Updates id x c c') (hx : ∀ item, x = some item → P id item) :
    All P c' :=
  of_updates hup (fun j item _ hj => h j item hj) hx

end All

/-! ## Holding and leaving -/

theorem getElem?_pin (c : Cache) (id j : ItemId) : (c.pin id).items[j]? =
    if id = j then (c.items[j]?).map (fun item => { item with pins := item.pins + 1 })
    else c.items[j]? :=
  getElem?_modify c id _ j

end Cache

theorem InOrder.placed {rs : List Record} (h : InOrder rs) (r : Record) :
    InOrder (Cache.placed r rs) := by
  refine List.pairwise_append.2 ⟨h.filter _, List.pairwise_cons.2 ⟨fun x hx => ?_, h.filter _⟩,
    fun x hx y hy => ?_⟩
  · have := (List.mem_filter.1 hx).2
    exact (Timestamp.le_total _ _).resolve_right (by simpa using this)
  · have hle : x.time ≤ r.time := by simpa using (List.mem_filter.1 hx).2
    rcases List.mem_cons.1 hy with rfl | hy
    · exact hle
    · have hlt := (List.mem_filter.1 hy).2
      exact Timestamp.le_trans hle
        ((Timestamp.le_total _ _).resolve_right (by simpa using hlt))

/-- The records that are not of a second or before it. -/
theorem InOrder.dropWhile_sec {rs : List Record} (h : InOrder rs) (sec : Int) :
    (rs.dropWhile fun r => decide (r.sec ≤ sec)) = rs.filter fun r => decide (sec < r.sec) := by
  have hdown : rs.Pairwise fun a b => decide (b.sec ≤ sec) = true → decide (a.sec ≤ sec) = true :=
    h.imp fun {a b} hab hb => by
      have := Record.sec_le_of_le hab
      rw [decide_eq_true_iff] at hb ⊢
      omega
  rw [dropWhile_eq_filter_of_pairwise hdown]
  refine List.filter_congr fun r _ => ?_
  rw [← decide_not, decide_eq_decide, Int.not_le]

/-- Records in order fall into those up to a second and those after it. -/
theorem InOrder.split_sec {rs : List Record} (h : InOrder rs) (sec : Int) :
    (rs.takeWhile fun r => decide (r.sec ≤ sec)) ++ (rs.filter fun r => decide (sec < r.sec)) =
      rs := by
  rw [← h.dropWhile_sec, List.takeWhile_append_dropWhile]

theorem Item.Takes.sorted {r : Record} {item item' : Item} (h : item.Takes r item')
    (hs : item.history.Sorted) : item'.history.Sorted := by
  cases h with
  | placed h htidy hrecords => exact ⟨htidy, by rw [hrecords]; exact hs.inOrder.placed r⟩
  | ignored => exact hs
  | dropped h oldest htidy _ _ hrecords =>
    exact ⟨htidy, by rw [hrecords]; exact hs.inOrder.sublist (List.dropWhile_sublist _)⟩

/-- What a trim of an item leads to. -/
def Item.Trims (now : Int) (item item' : Item) : Prop :=
  item' = item ∨ ∃ sec h,
    item' = { item with history := h, coveredFrom := some (sec + 1), cachedAll := false } ∧
    item.activeRange ≠ 0 ∧ sec < item.boundary now ∧ h.Tidy ∧ h.records ≠ [] ∧
    (∃ r ∈ item.history.records, r.sec = sec) ∧
    h.records = item.history.records.filter fun r => decide (sec < r.sec)

/-- What becomes of an item when somebody leaves it. -/
inductive Item.Leaves (now : Int) (item : Item) : Option Item → Prop
  | kept (hstay : 0 < item.pins - 1 ∨ item.state = .active) :
      Leaves now item (some { item with pins := item.pins - 1 })
  | removed (hlast : item.pins - 1 = 0) (hstate : item.state = .removePending) :
      Leaves now item none
  | trimmed (item' : Item) (hlast : item.pins - 1 = 0) (hstate : item.state = .cleanPending)
      (htrim : Item.Trims now { item with pins := item.pins - 1 } item') :
      Leaves now item (some { item' with state := .active })

namespace Cache

variable {c c' : Cache} {now : Int} {id : ItemId} {item : Item}

theorem unpin_spec (now : Int) (hid : c.items[id]? = some item) (hs : item.history.Sorted) :
    ∃ x, item.Leaves now x ∧ ∀ j, (c.unpin now id).items[j]? = if id = j then x else c.items[j]? := by
  rw [unpin, hid]
  simp only []
  split
  · next hpins => exact ⟨_, .kept (Or.inl hpins), getElem?_checkIn c id _⟩
  · next hpins =>
    have hlast : item.pins - 1 = 0 := by omega
    split
    · next hstate => exact ⟨_, .kept (Or.inr hstate), getElem?_checkIn c id _⟩
    · next hstate =>
      refine ⟨none, .removed hlast hstate, fun j => ?_⟩
      rw [getElem?_remove, getElem?_checkIn]
      split <;> rfl
    · next hstate =>
      generalize htrim : (c.checkOut id).trim now { item with pins := item.pins - 1 } = trimmed
      obtain ⟨item', c₁⟩ := trimmed
      have hs' : ({ item with pins := item.pins - 1 } : Item).history.Sorted := hs
      obtain ⟨hitems, htrims⟩ := trim_spec hs'.tidy hs'.inOrder htrim
      refine ⟨_, .trimmed item' hlast hstate htrims, fun j => ?_⟩
      rw [getElem?_checkIn, hitems, getElem?_checkOut]
      split <;> rfl

/-! ## Ingest -/

end Cache

/-- What becomes of an item that is offered a written record. -/
inductive Item.Offered (r : Record) (item : Item) : Item → Prop
  /-- An item that is to be removed takes nothing. -/
  | passed (hstate : item.state = .removePending) : Offered r item item
  | taken (item' : Item) (hstate : item.state ≠ .removePending) (hkind : item.kind = r.value.kind)
      (htakes : item.Takes r item') : Offered r item item'
  /-- The history has a new newest chunk. -/
  | grown (item' : Item) (hstate : item.state ≠ .removePending) (hkind : item.kind = r.value.kind)
      (htakes : item.Takes r item') : Offered r item item'.markClean
  /-- The record is not cached, so the item is to be removed. -/
  | lost (hstate : item.state ≠ .removePending) : Offered r item item.markRemove

theorem Item.markClean_eq (item : Item) : ∃ state, item.markClean = { item with state := state } ∧
    (item.state = .removePending → state = .removePending) := by
  rw [Item.markClean]
  split
  · next hactive => exact ⟨.cleanPending, rfl, fun h => by rw [hactive] at h; cases h⟩
  · exact ⟨item.state, rfl, fun h => h⟩

theorem Item.Offered.sorted {r : Record} {item item' : Item} (h : item.Offered r item')
    (hs : item.history.Sorted) : item'.history.Sorted := by
  cases h with
  | passed => exact hs
  | taken item' _ _ htakes => exact htakes.sorted hs
  | grown item' _ _ htakes =>
    rw [Item.markClean]
    split <;> exact htakes.sorted hs
  | lost => exact hs

namespace Cache

variable {c c' : Cache} {now : Int} {id : ItemId} {item : Item}

theorem offer_spec {expireBefore : Int} {r : Record} {item' : Item}
    {result : Except CacheFailure Unit} (hs : item.history.Sorted)
    (hoffer : c.offer now expireBefore id r item = (result, item', c')) :
    Evicts id c c' ∧ (result = .ok () ∧ item.Offered r item' ∨
      (∃ e, result = .error e) ∧ item.Offered r item'.markRemove) := by
  rw [offer] at hoffer
  split at hoffer
  · next hstate =>
    cases hoffer
    exact ⟨Evicts.refl, Or.inl ⟨rfl, .passed hstate⟩⟩
  · next hstate =>
    split at hoffer
    · cases hoffer
      exact ⟨Evicts.refl, Or.inr ⟨⟨_, rfl⟩, .lost hstate⟩⟩
    · next hkind =>
      split at hoffer
      · cases hoffer
        exact ⟨Evicts.refl, Or.inr ⟨⟨_, rfl⟩, .lost hstate⟩⟩
      · have hkind : item.kind = r.value.kind := not_not.1 hkind
        split at hoffer
        · next e item₁ c₁ heq =>
          cases hoffer
          obtain ⟨hev, ⟨hok, -⟩ | ⟨rfl, -⟩⟩ := write_spec hs.tidy hs.inOrder heq
          · cases hok
          · exact ⟨hev, Or.inr ⟨⟨_, rfl⟩, .lost hstate⟩⟩
        · next item₁ c₁ heq =>
          obtain ⟨hev, ⟨-, htakes⟩ | ⟨-, n, herror⟩⟩ := write_spec hs.tidy hs.inOrder heq
          · split at hoffer
            · cases hoffer
              exact ⟨hev, Or.inl ⟨rfl, .grown _ hstate hkind htakes⟩⟩
            · cases hoffer
              exact ⟨hev, Or.inl ⟨rfl, .taken _ hstate hkind htakes⟩⟩
          · cases herror

/-- **A written record** is offered to its item, if that is cached. -/
theorem ingestOne_spec (now expireBefore : Int) {c : Cache} {w : ItemRecord}
    (hs : ∀ item, c.items[w.item]? = some item → item.history.Sorted) :
    (c.items[w.item]? = none ∧ (ingestOne now expireBefore c w).items = c.items) ∨
      ∃ item item' x, c.items[w.item]? = some item ∧
        { item with pins := item.pins + 1 }.Offered w.record item' ∧ item'.Leaves now x ∧
        Updates w.item x c (ingestOne now expireBefore c w) := by
  have hpin := getElem?_pin c w.item
  rw [ingestOne]
  cases hid : c.items[w.item]? with
  | none =>
    left
    have hsame : c.pin w.item = c := by rw [pin, modify, hid]
    simp only [hsame, hid, true_and]
  | some item =>
    right
    have hself : (c.pin w.item).items[w.item]? = some { item with pins := item.pins + 1 } := by
      rw [hpin, if_pos rfl, hid, Option.map_some]
    simp only [hself]
    have hup : Updates w.item (some { item with pins := item.pins + 1 }) c (c.pin w.item) := by
      refine Updates.of_getElem? fun j => ?_
      rw [hpin]
      split
      · next hj => rw [← hj, hid, Option.map_some]
      · rfl
    have hs' : ({ item with pins := item.pins + 1 } : Item).history.Sorted := hs item hid
    have hleave : ∀ {item' : Item} {c₁ : Cache} (c₂ : Cache), item'.history.Sorted →
        Evicts w.item ((c.pin w.item).checkOut w.item) c₁ →
        c₂.items = (c₁.checkIn w.item item').items →
        ∃ x, item'.Leaves now x ∧ Updates w.item x c (c₂.unpin now w.item) := by
      intro item' c₁ c₂ hsorted hev hitems
      have hin := (hup.trans (hev.checkIn item')).congr hitems
      obtain ⟨x, hx, hget⟩ := unpin_spec now hin.1 hsorted
      exact ⟨x, hx, hin.trans (Updates.of_getElem? hget)⟩
    split
    · next item₁ c₁ heq =>
      obtain ⟨hev, ⟨-, hoffered⟩ | ⟨⟨e, herror⟩, -⟩⟩ := offer_spec hs' heq
      · obtain ⟨x, hx, hup'⟩ := hleave _ (hoffered.sorted hs') hev rfl
        exact ⟨item, item₁, x, rfl, hoffered, hx, hup'⟩
      · cases herror
    · next e item₁ c₁ heq =>
      obtain ⟨hev, ⟨hok, -⟩ | ⟨-, hoffered⟩⟩ := offer_spec hs' heq
      · cases hok
      · obtain ⟨x, hx, hup'⟩ := hleave
          ((c₁.checkIn w.item item₁.markRemove).log (.dropping w.item e.message))
          (hoffered.sorted hs') hev rfl
        exact ⟨item, item₁.markRemove, x, rfl, hoffered, hx, hup'⟩

/-! ## Removal -/

/-- A removal is put off while somebody holds the item. -/
theorem requestRemoval_spec (c : Cache) (id : ItemId) :
    (c.items[id]? = none ∧ (c.requestRemoval id).items = c.items) ∨
      ∃ item, c.items[id]? = some item ∧ ∀ j, (c.requestRemoval id).items[j]? =
        if id = j then (if 0 < item.pins then some item.markRemove else none) else c.items[j]? := by
  rw [requestRemoval]
  cases hid : c.items[id]? with
  | none => exact Or.inl ⟨rfl, rfl⟩
  | some item =>
    refine Or.inr ⟨item, rfl, fun j => ?_⟩
    simp only []
    split
    · rw [getElem?_checkIn]
    · rw [getElem?_remove]

/-- What is left of an item whose removal is requested: it stays as long as somebody holds it. -/
def leaving (item : Item) : Option Item := if 0 < item.pins then some item.markRemove else none

theorem getElem?_requestRemoval (c : Cache) (id j : ItemId) : (c.requestRemoval id).items[j]? =
    if id = j then (c.items[j]?).bind leaving else c.items[j]? := by
  rcases requestRemoval_spec c id with ⟨hnone, hitems⟩ | ⟨item, hsome, hget⟩
  · rw [hitems]
    split
    · next heq => rw [← heq, hnone]; rfl
    · rfl
  · rw [hget]
    split
    · next heq => rw [← heq, hsome]; rfl
    · rfl

/-- **Removals** are requested of items each of which is listed once. -/
theorem getElem?_removals {ids : List ItemId} (hnodup : ids.Nodup) (c : Cache) (j : ItemId) :
    (ids.foldl requestRemoval c).items[j]? =
      if j ∈ ids then (c.items[j]?).bind leaving else c.items[j]? := by
  induction ids generalizing c with
  | nil => rfl
  | cons id ids ih =>
    obtain ⟨hid, hids⟩ := List.nodup_cons.1 hnodup
    rw [List.foldl_cons, ih hids, getElem?_requestRemoval]
    by_cases hj : id = j
    · subst hj
      simp [hid]
    · simp [hj, Ne.symm hj]

end Cache

end HistoryCache
