import HistoryCache.Proofs.Soundness

/-!
# Items that somebody holds

While somebody holds an item, others leave it in the cache and only add to it (`Item.Later`): its
history grows, unless a record was written below it or the item is to be removed.  `Cache.Holds` says
so of all held items at once, and that complete operations of others leave the number of holders of
every item as it was.
-/

namespace HistoryCache

namespace Item

/-- What others make of an item in the course of time, where `new` are the records that were written
for it since. -/
structure Later (new : Record → Prop) (item item' : Item) : Prop where
  kind : item'.kind = item.kind
  pending : item.state = .removePending → item'.state = .removePending
  writes : item.tailWrites ≤ item'.tailWrites
  /-- Without a write below the history and as long as the item is not to be removed, it keeps what
  it has and gains what is written. -/
  records : item'.tailWrites = item.tailWrites → item'.state ≠ .removePending →
    (∀ r ∈ item.history.records, r ∈ item'.history.records) ∧
      ∀ r, new r → r.value.kind = item.kind → r ∈ item'.history.records

namespace Later

variable {new new' : Record → Prop} {item item' item'' : Item}

theorem refl : item.Later (fun _ => False) item :=
  ⟨rfl, id, Nat.le_refl _, fun _ _ => ⟨fun _ => id, fun _ h => h.elim⟩⟩

theorem trans (h : item.Later new item') (k : item'.Later new' item'') :
    item.Later (fun r => new r ∨ new' r) item'' := by
  refine ⟨k.kind.trans h.kind, fun hs => k.pending (h.pending hs), h.writes.trans k.writes,
    fun hw hs => ?_⟩
  have h1 := h.writes
  have h2 := k.writes
  obtain ⟨hk, hnew'⟩ := k.records (by omega) hs
  obtain ⟨hh, hnew⟩ := h.records (by omega) fun hp => hs (k.pending hp)
  refine ⟨fun r hr => hk r (hh r hr), fun r hr hkind => ?_⟩
  rcases hr with hr | hr
  · exact hk r (hnew r hr hkind)
  · exact hnew' r hr (hkind.trans h.kind.symm)

theorem mono (h : item.Later new item') (hnew : ∀ r, new' r → new r) : item.Later new' item' :=
  ⟨h.kind, h.pending, h.writes, fun hw hs =>
    ⟨(h.records hw hs).1, fun r hr => (h.records hw hs).2 r (hnew r hr)⟩⟩

theorem trans_left (h : item.Later new item') (k : item'.Later (fun _ => False) item'') :
    item.Later new item'' :=
  (h.trans k).mono fun _ => Or.inl

/-- An item that is to be removed gains nothing any more. -/
theorem of_pending (hkind : item'.kind = item.kind) (hwrites : item.tailWrites ≤ item'.tailWrites)
    (hstate : item'.state = .removePending) : item.Later new item' :=
  ⟨hkind, fun _ => hstate, hwrites, fun _ hs => absurd hstate hs⟩

/-- A history may grow. -/
theorem of_records (hkind : item'.kind = item.kind) (hstate : item'.state = item.state)
    (hwrites : item'.tailWrites = item.tailWrites)
    (hrecords : ∀ r ∈ item.history.records, r ∈ item'.history.records) :
    item.Later (fun _ => False) item' :=
  ⟨hkind, fun h => hstate.trans h, Nat.le_of_eq hwrites.symm, fun _ _ =>
    ⟨hrecords, fun _ h => h.elim⟩⟩

end Later

variable {item item' : Item} {r : Record} {now : Int}

theorem Takes.later (h : item.Takes r item') :
    item.Later (fun x => x = r) item' ∧ item'.pins = item.pins ∧
      (item'.state = item.state ∨ item'.state = .removePending) := by
  cases h with
  | placed g _ hrecords =>
    have hmem : ∀ x, x ∈ g.records ↔ x ∈ item.history.records ∨ x = r := fun x => by
      rw [hrecords, Cache.mem_placed]
    exact ⟨⟨rfl, id, Nat.le_refl _, fun _ _ => ⟨fun x hx => (hmem x).2 (Or.inl hx), fun x hx _ =>
      (hmem x).2 (Or.inr hx)⟩⟩, rfl, Or.inl rfl⟩
  | ignored =>
    exact ⟨⟨rfl, id, Nat.le_succ _, fun hw => absurd hw (Nat.succ_ne_self _)⟩, rfl, Or.inl rfl⟩
  | dropped g _ _ _ _ hrecords =>
    refine ⟨⟨rfl, fun hs => ?_, Nat.le_succ _, fun hw => absurd hw (Nat.succ_ne_self _)⟩, rfl, ?_⟩
    · change (if g.records = [] then _ else item.state) = _
      split
      · rfl
      · exact hs
    · change (if g.records = [] then ItemState.removePending else item.state) = item.state ∨
        (if g.records = [] then ItemState.removePending else item.state) = _
      split
      · exact Or.inr rfl
      · exact Or.inl rfl

theorem Offered.later (h : item.Offered r item') :
    item.Later (fun x => x = r) item' ∧ item'.pins = item.pins := by
  cases h with
  | passed hstate => exact ⟨.of_pending rfl (Nat.le_refl _) hstate, rfl⟩
  | taken _ _ _ htakes => exact ⟨htakes.later.1, htakes.later.2.1⟩
  | grown item' hstate hkind htakes =>
    obtain ⟨hlater, hpins, -⟩ := htakes.later
    rw [markClean]
    split
    · next hactive =>
      refine ⟨hlater.trans_left ⟨rfl, fun hs => ?_, Nat.le_refl _, fun _ _ =>
        ⟨fun _ => id, fun _ h => h.elim⟩⟩, hpins⟩
      rw [hactive] at hs
      cases hs
    · exact ⟨hlater, hpins⟩
  | lost => exact ⟨.of_pending rfl (Nat.le_refl _) rfl, rfl⟩

/-- While others hold an item as well, somebody who leaves changes nothing else. -/
theorem Leaves.of_held {x : Option Item} (h : item.Leaves now x) (hpins : 1 < item.pins) :
    x = some { item with pins := item.pins - 1 } := by
  cases h with
  | kept => rfl
  | removed hlast => omega
  | trimmed _ hlast => omega

theorem Leaves.pins {x : Option Item} (h : item.Leaves now x) :
    ∀ item', x = some item' → item'.pins = item.pins - 1 := by
  intro item' hx
  cases h with
  | kept => cases hx; rfl
  | removed => cases hx
  | trimmed item₁ _ _ htrims =>
    cases hx
    rcases htrims with rfl | ⟨_, _, rfl, -⟩ <;> rfl

theorem Leaves.kind {x : Option Item} (h : item.Leaves now x) :
    ∀ item', x = some item' → item'.kind = item.kind := by
  intro item' hx
  cases h with
  | kept => cases hx; rfl
  | removed => cases hx
  | trimmed item₁ _ _ htrims =>
    cases hx
    rcases htrims with rfl | ⟨_, _, rfl, -⟩ <;> rfl

theorem Answers.exists {q : Request} {x : Option Item} (h : item.Answers now q x)
    (hs : item.history.Sorted) : ∃ item', item.Later (fun _ => False) item' ∧
      item'.pins = item.pins ∧ item'.Leaves now x := by
  obtain ⟨n, hleaves⟩ := h
  obtain ⟨active, daily, hour, all, hitem, -⟩ := Request.collect_item q now hs
  refine ⟨_, ?_, ?_, hleaves⟩
  · rw [hitem]
    exact .of_records rfl rfl rfl fun _ => id
  · rw [hitem]

end Item

/-- The item that a request holds after its first step. -/
def Start.holds (q : Request) : Start → Option ItemId
  | answer _ | bypass false => none
  | fill _ | bypass true => some q.item

namespace Cache

/-- The number of those who hold an item. -/
def pinsOf (c : Cache) (id : ItemId) : Nat := (c.items[id]?).elim 0 Item.pins

/-- The holders of every item are as many as before, with one more if an item is named, and what
they hold is still there. -/
structure Holds (more : Option ItemId) (new : ItemId → Record → Prop) (c c' : Cache) : Prop where
  pins : ∀ id : ItemId, c'.pinsOf id = c.pinsOf id + if more = some id then 1 else 0
  later : ∀ (id : ItemId) (item : Item), c.items[id]? = some item → 0 < item.pins →
    ∃ item' : Item, c'.items[id]? = some item' ∧ item.Later (new id) item'

namespace Holds

variable {more : Option ItemId} {new new' : ItemId → Record → Prop} {c c' c'' : Cache} {id : ItemId}
  {x : Option Item} {now : Int}

theorem pinsOf_some {item : Item} (hid : c.items[id]? = some item) : c.pinsOf id = item.pins := by
  rw [pinsOf, hid, Option.elim_some]

theorem of_items (h : c'.items = c.items) : Holds none (fun _ _ => False) c c' :=
  ⟨fun id => by rw [pinsOf, h]; rfl, fun id item hid _ => ⟨item, by rw [h, hid], .refl⟩⟩

theorem mono (h : Holds more new c c') (hnew : ∀ id r, new' id r → new id r) :
    Holds more new' c c' :=
  ⟨h.pins, fun id item hid hpins => by
    obtain ⟨item', hid', hlater⟩ := h.later id item hid hpins
    exact ⟨item', hid', hlater.mono (hnew id)⟩⟩

theorem trans (h : Holds more new c c') (k : Holds none new' c' c'') :
    Holds more (fun id r => new id r ∨ new' id r) c c'' := by
  refine ⟨fun id => (k.pins id).trans (h.pins id), fun id item hid hpins => ?_⟩
  obtain ⟨item', hid', hlater⟩ := h.later id item hid hpins
  have hp := h.pins id
  rw [pinsOf_some hid, pinsOf_some hid'] at hp
  obtain ⟨item'', hid'', hlater'⟩ := k.later id item' hid' (by omega)
  exact ⟨item'', hid'', hlater.trans hlater'⟩

/-- A step that works on one item. -/
theorem of_updates (hup : Updates id x c c') (hnew : ∀ j, j ≠ id → ∀ r, ¬ new j r)
    (hmore : ∀ j, j ≠ id → more ≠ some j)
    (hpins : x.elim 0 Item.pins = c.pinsOf id + if more = some id then 1 else 0)
    (hx : ∀ item, c.items[id]? = some item → 0 < item.pins →
      ∃ item', x = some item' ∧ item.Later (new id) item') : Holds more new c c' := by
  refine ⟨fun j => ?_, fun j item hj hheld => ?_⟩
  · by_cases hid : j = id
    · subst hid
      rw [← hpins, pinsOf, hup.1]
    · rw [if_neg (hmore j hid), Nat.add_zero, pinsOf, pinsOf]
      rcases hup.2 j hid with heq | ⟨hnone, item, hitem, hzero⟩
      · rw [heq]
      · rw [hnone, hitem, Option.elim_none, Option.elim_some, hzero]
  · by_cases hid : j = id
    · subst hid
      obtain ⟨item', rfl, hlater⟩ := hx item hj hheld
      exact ⟨item', hup.1, hlater⟩
    · rcases hup.2 j hid with heq | ⟨-, item', hitem', hzero⟩
      · exact ⟨item, by rw [heq, hj], Item.Later.refl.mono fun r hr => hnew j hid r hr⟩
      · rw [hj] at hitem'
        cases hitem'
        omega

/-- A step that holds an item from its start to its end. -/
theorem visited {item' : Item} (hup : Updates id x c c') (hpins : item'.pins = c.pinsOf id + 1)
    (hleaves : item'.Leaves now x) (hnew : ∀ j, j ≠ id → ∀ r, ¬ new j r)
    (hlater : ∀ item, c.items[id]? = some item → item.Later (new id) item') :
    Holds none new c c' := by
  refine of_updates hup hnew (fun j _ => by simp) ?_ fun item hid hheld => ?_
  · rw [if_neg (by simp), Nat.add_zero]
    cases x with
    | none =>
      cases hleaves
      rw [Option.elim_none]
      omega
    | some item₂ =>
      have := hleaves.pins item₂ rfl
      rw [Option.elim_some]
      omega
  · rw [pinsOf_some hid] at hpins
    refine ⟨_, hleaves.of_held (by omega), (hlater item hid).trans_left ?_⟩
    exact .of_records rfl rfl rfl fun _ hr => hr

/-- The one more holder of an item leaves it. -/
theorem leaves (h : Holds (some id) new c c') {item : Item} (hleaves : item.Leaves now x)
    {item₀ : Item} (hid : c'.items[id]? = some item₀) (hpins : item.pins = item₀.pins)
    (hlater : item₀.Later (fun _ => False) item) (hup : Updates id x c' c'') :
    Holds none new c c'' := by
  have hp := h.pins id
  rw [if_pos rfl, pinsOf_some hid] at hp
  refine ⟨fun j => ?_, fun j item₁ hj hheld => ?_⟩
  · by_cases hji : j = id
    · subst hji
      rw [pinsOf, hup.1]
      cases x with
      | none =>
        cases hleaves
        rw [Option.elim_none, if_neg (by simp)]
        omega
      | some item' =>
        have := hleaves.pins item' rfl
        rw [Option.elim_some, if_neg (by simp)]
        omega
    · have hpj := h.pins j
      rw [if_neg fun hj => hji (Option.some.inj hj).symm] at hpj
      rw [Nat.add_zero] at hpj
      rw [if_neg (by simp), Nat.add_zero, ← hpj, pinsOf, pinsOf]
      rcases hup.2 j hji with heq | ⟨hnone, item, hitem, hzero⟩
      · rw [heq]
      · rw [hnone, hitem, Option.elim_none, Option.elim_some, hzero]
  · by_cases hji : j = id
    · subst hji
      obtain ⟨item', hid', hlater'⟩ := h.later j item₁ hj hheld
      rw [hid] at hid'
      cases hid'
      rw [pinsOf_some hj] at hp
      have hstay := hleaves.of_held (by omega)
      refine ⟨_, hup.1.trans hstay, (hlater'.trans_left hlater).trans_left ?_⟩
      exact .of_records rfl rfl rfl fun _ => id
    · obtain ⟨item', hid', hlater'⟩ := h.later j item₁ hj hheld
      have hpj := h.pins j
      rw [if_neg fun hj => hji (Option.some.inj hj).symm, pinsOf_some hj, pinsOf_some hid'] at hpj
      rcases hup.2 j hji with heq | ⟨-, item, hitem, hzero⟩
      · exact ⟨item', by rw [heq, hid'], hlater'⟩
      · rw [hid'] at hitem
        cases hitem
        omega

/-! ## Writes and removals -/

theorem ingestOne (expireBefore : Int) {w : ItemRecord}
    (hs : ∀ item, c.items[w.item]? = some item → item.history.Sorted) :
    Holds none (fun id r => id = w.item ∧ r = w.record) c
      (Cache.ingestOne now expireBefore c w) := by
  rcases ingestOne_spec now expireBefore hs with ⟨hnone, hitems⟩ |
    ⟨item, item', x, hid, hoffered, hleaves, hup⟩
  · refine ⟨fun id => by rw [pinsOf, pinsOf, hitems]; rfl, fun id item hid _ => ?_⟩
    refine ⟨item, by rw [hitems, hid], Item.Later.refl.mono fun r hr => ?_⟩
    rw [hr.1, hnone] at hid
    cases hid
  · obtain ⟨hlater, hpins⟩ := hoffered.later
    refine visited hup (by rw [pinsOf_some hid]; exact hpins) hleaves (fun j hj r hr => hj hr.1)
      fun item₁ hid₁ => ?_
    rw [hid] at hid₁
    cases hid₁
    exact ⟨hlater.kind, hlater.pending, hlater.writes, fun hw hs =>
      ⟨(hlater.records hw hs).1, fun r hr => (hlater.records hw hs).2 r hr.2⟩⟩

theorem ingest (h : c.Sound fun _ _ _ => True) (now : Int) (writes : List ItemRecord) :
    Holds none (fun id r => ⟨id, r⟩ ∈ writes) c (c.ingest now writes) := by
  rw [Cache.ingest]
  generalize c.expireBefore now = expireBefore
  induction writes generalizing c with
  | nil => exact (of_items rfl).mono fun id r hr => absurd hr List.not_mem_nil
  | cons w writes ih =>
    refine ((ingestOne expireBefore fun item hid => h.sorted _ item hid).trans
      (ih (h.ingestOne_sorted expireBefore w))).mono fun id r hr => ?_
    rcases List.mem_cons.1 hr with rfl | hr
    · exact Or.inl ⟨rfl, rfl⟩
    · exact Or.inr hr

theorem requestRemoval (c : Cache) (id : ItemId) :
    Holds none (fun _ _ => False) c (c.requestRemoval id) := by
  rcases requestRemoval_spec c id with ⟨-, hitems⟩ | ⟨item, hid, hget⟩
  · exact of_items hitems
  · refine of_updates (Updates.of_getElem? hget) (fun _ _ _ h => h) (fun j _ => by simp) ?_
      fun item₁ hid₁ hheld => ?_
    · rw [pinsOf_some hid, if_neg (by simp : ¬ (none : Option ItemId) = some id), Nat.add_zero]
      split
      · rfl
      · rw [Option.elim_none]
        omega
    · rw [hid] at hid₁
      cases hid₁
      exact ⟨item.markRemove, if_pos hheld, .of_pending rfl (Nat.le_refl _) rfl⟩

theorem requestRemovals (ids : List ItemId) (c : Cache) :
    Holds none (fun _ _ => False) c (ids.foldl Cache.requestRemoval c) := by
  induction ids generalizing c with
  | nil => exact of_items rfl
  | cons id ids ih =>
    exact ((requestRemoval c id).trans (ih _)).mono fun _ _ h => Or.inl h

theorem reset (c : Cache) : Holds none (fun _ _ => False) c c.reset :=
  have hrest : Holds none (fun _ _ => False) (c.ids.foldl Cache.requestRemoval c) c.reset :=
    of_items rfl
  (((requestRemovals c.ids c).trans hrest).mono fun _ _ h => Or.inl h)

/-! ## Requests -/

variable {q : Request}

theorem pinsOf_finds {item : Item} (hfinds : c.Finds now q item) : c.pinsOf q.item = item.pins := by
  rcases hfinds with hid | ⟨hnone, rfl⟩
  · exact pinsOf_some hid
  · rw [pinsOf, hnone]
    rfl

/-- A request holds its item from its first step on, unless that is its last one or there is no such
item. -/
theorem started (h : c.Sound fun _ _ _ => True) {next : Start}
    (hstarted : Started now q c next c') :
    Holds (next.holds q) (fun _ _ => False) c c' := by
  have hpinned : ∀ {item item' : Item}, Updates q.item (some item') c c' → c.Finds now q item →
      item'.pins = item.pins + 1 → item.Later (fun _ => False) item' →
      Holds (some q.item) (fun _ _ => False) c c' := by
    intro item item' hup hfinds hpins hlater
    refine of_updates hup (fun _ _ _ h => h) (fun j hj heq => hj (Option.some.inj heq).symm) ?_
      fun item₁ hid₁ hheld => ⟨item', rfl, ?_⟩
    · rw [Option.elim_some, if_pos rfl, pinsOf_finds hfinds, hpins]
    · rcases hfinds with hid | ⟨hnone, -⟩
      · rw [hid] at hid₁
        cases hid₁
        exact hlater
      · rw [hnone] at hid₁
        cases hid₁
  cases hstarted with
  | past _ hnone hup =>
    refine of_updates hup (fun _ _ _ h => h) (fun j _ => by simp [Start.holds]) ?_ fun item hid => ?_
    · rw [pinsOf, hnone]
      rfl
    · rw [hnone] at hid
      cases hid
  | refused item _ hfinds _ hup =>
    exact hpinned hup hfinds rfl (.of_pending rfl (Nat.le_refl _) rfl)
  | fills item _ _ hfinds _ _ _ hup =>
    exact hpinned hup hfinds rfl (.of_records rfl rfl rfl fun _ hr => hr)
  | answers item x _ hfinds _ _ _ hanswers hup =>
    have hs : ({ item with pins := item.pins + 1 } : Item).history.Sorted := by
      rcases hfinds with hid | ⟨-, rfl⟩
      · exact h.sorted _ item hid
      · exact .empty
    obtain ⟨item', hlater, hpins, hleaves⟩ := hanswers.exists hs
    refine visited hup (by rw [pinsOf_finds hfinds]; exact hpins) hleaves (fun _ _ _ h => h)
      fun item₁ hid₁ => ?_
    rcases hfinds with hid | ⟨hnone, -⟩
    · rw [hid] at hid₁
      cases hid₁
      exact ⟨hlater.kind, hlater.pending, hlater.writes, hlater.records⟩
    · rw [hnone] at hid₁
      cases hid₁

/-- A request that goes past the cache after its reading still holds its item. -/
theorem lost {item : Item} {fill : Fill} {result : Except StoreFailure Fetched}
    (hid : c.items[q.item]? = some item)
    (hfinished : Finished now q fill item c result none c') :
    Holds none (fun _ _ => False) c c' := by
  cases hfinished with
  | lost _ h _ _ _ hup =>
    refine of_updates hup (fun _ _ _ h => h) (fun j _ => by simp) ?_ fun item₁ hid₁ _ =>
      ⟨_, rfl, ?_⟩
    · rw [Option.elim_some, pinsOf_some hid, if_neg (by simp), Nat.add_zero]
    · rw [hid] at hid₁
      cases hid₁
      exact .of_pending rfl (Nat.le_refl _) rfl

/-- A request that answers after its reading leaves its item. -/
theorem filled (h : Holds (some q.item) new c c') {item : Item} {fill : Fill} {fetched : Fetched}
    {records : List Record} (hid : c'.items[q.item]? = some item) (hs : item.history.Sorted)
    (ho : InOrder fetched.records)
    (hfinished : Finished now q fill item c' (.ok fetched) (some records) c'') :
    Holds none new c c'' := by
  cases hfinished with
  | answers _ g x _ hstate hwrites htidy hrecords hanswers hup =>
    obtain ⟨all, covered, hmark⟩ := mark_eq fill.extent fetched { item with history := g }
    rw [hmark] at hanswers
    obtain ⟨item', hlater, hpins, hleaves⟩ := hanswers.exists
      (sorted_of_below hs ho htidy List.suffix_rfl hrecords)
    refine h.leaves hleaves hid hpins (Item.Later.trans_left ?_ hlater) hup
    refine .of_records rfl rfl rfl fun r hr => ?_
    change r ∈ g.records
    rw [hrecords]
    exact List.mem_append_right _ hr

/-- A request that went past the cache leaves its item, if it was held. -/
theorem bypassed {held : Bool} (h : Holds ((Start.bypass held).holds q) new c c')
    (hs : c'.Sound fun _ _ _ => True) (result : Except StoreFailure (List Record)) :
    Holds none new c (c'.finishBypass now q held result) := by
  have hspec := finishBypass_spec now q held result (fun item hid => hs.sorted _ item hid)
  cases held with
  | false =>
    rcases hspec with ⟨hitems, -⟩ | ⟨htrue, -⟩
    · exact (h.trans (of_items hitems)).mono fun _ _ hr => Or.inl hr
    · cases htrue
  | true =>
    rcases hspec with ⟨-, hfalse | hnone⟩ | ⟨-, item, x, hid, hleaves, hup⟩
    · cases hfalse
    · have hp := h.pins q.item
      rw [pinsOf, hnone, Option.elim_none, Start.holds, if_pos rfl] at hp
      omega
    · exact h.leaves hleaves hid rfl .refl hup

end Holds

end Cache

end HistoryCache
