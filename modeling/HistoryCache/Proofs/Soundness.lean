import HistoryCache.Proofs.Serving

/-!
# What cached histories hold

Some properties of a cached item depend on its kind and its records only, and hold of fewer records
if they hold of some (`Thins`): that all records are of the item's kind, say, or that the store has
them.  For such a property this file says once how each step of the cache carries it
(`Cache.Sound`).  Records enter a history in two ways, so there are two steps that ask for
something: a record that is written (`Sound.ingestOne`) and records that were read
(`Sound.finished`).
-/

namespace HistoryCache

/-- What may be said of an item by its kind and its records. -/
abbrev Contents := ItemId → Kind → List Record → Prop

/-- What holds of some records holds of a part of them. -/
structure Thins (C : Contents) : Prop where
  nil : ∀ id kind, C id kind []
  sublist : ∀ {id kind rs rs'}, C id kind rs → rs'.Sublist rs → C id kind rs'

/-- The history of an item is in order, and its contents are as `C` says. -/
structure Item.Sound (C : Contents) (id : ItemId) (item : Item) : Prop where
  sorted : item.history.Sorted
  contents : C id item.kind item.history.records

namespace Item.Sound

variable {C C' : Contents} {id : ItemId} {item item' : Item} {r : Record} {now : Int}

theorem congr (h : item.Sound C id) (hhistory : item'.history = item.history)
    (hkind : item'.kind = item.kind) : item'.Sound C id where
  sorted := by rw [hhistory]; exact h.sorted
  contents := by rw [hhistory, hkind]; exact h.contents

theorem mono (h : item.Sound C id) (hC : ∀ {kind rs}, C id kind rs → C' id kind rs) :
    item.Sound C' id where
  sorted := h.sorted
  contents := hC h.contents

theorem empty (hC : Thins C) (kind : Kind) (now : Int) : (Item.empty kind now).Sound C id where
  sorted := .empty
  contents := hC.nil id kind

/-- An item that has lost some of its records. -/
theorem thinned (h : item.Sound C id) (hC : Thins C) {g : History} (htidy : g.Tidy)
    (hsub : g.records.Sublist item.history.records) :
    ({ item with history := g } : Item).Sound C id where
  sorted := ⟨htidy, h.sorted.inOrder.sublist hsub⟩
  contents := hC.sublist h.contents hsub

theorem takes (h : item.Sound C id) (hC : Thins C') (hmono : ∀ {kind rs}, C id kind rs → C' id kind rs)
    (hplaced : ∀ {rs}, C id item.kind rs → C' id item.kind (Cache.placed r rs))
    (htakes : item.Takes r item') : item'.Sound C' id := by
  have h' : item.Sound C' id := h.mono hmono
  have hsorted := htakes.sorted h.sorted
  cases htakes with
  | placed g _ hrecords =>
    refine ⟨hsorted, ?_⟩
    change C' id item.kind g.records
    rw [hrecords]
    exact hplaced h.contents
  | ignored => exact h'.congr rfl rfl
  | dropped g _ htidy _ _ hrecords =>
    refine (h'.thinned hC htidy ?_).congr rfl rfl
    rw [hrecords]
    exact List.dropWhile_sublist _

theorem trims (h : item.Sound C id) (hC : Thins C) (htrims : item.Trims now item') :
    item'.Sound C id := by
  rcases htrims with rfl | ⟨sec, g, rfl, -, -, htidy, -, -, hrecords⟩
  · exact h
  · refine (h.thinned hC htidy ?_).congr rfl rfl
    rw [hrecords]
    exact List.filter_sublist

theorem leaves {x : Option Item} (h : item.Sound C id) (hC : Thins C)
    (hleaves : item.Leaves now x) : ∀ item', x = some item' → item'.Sound C id := by
  intro item' hx
  cases hleaves with
  | kept => cases hx; exact h.congr rfl rfl
  | removed => cases hx
  | trimmed item₁ _ _ htrims =>
    cases hx
    have h' : ({ item with pins := item.pins - 1 } : Item).Sound C id := h.congr rfl rfl
    exact (h'.trims hC htrims).congr rfl rfl

theorem offered (h : item.Sound C id) (hC : Thins C')
    (hmono : ∀ {kind rs}, C id kind rs → C' id kind rs)
    (hplaced : ∀ {rs}, C id r.value.kind rs → C' id r.value.kind (Cache.placed r rs))
    (hoffered : item.Offered r item') : item'.Sound C' id := by
  cases hoffered with
  | passed => exact h.mono hmono
  | taken item' _ hkind htakes => exact h.takes hC hmono (hkind ▸ hplaced) htakes
  | grown item' _ hkind htakes =>
    have h' := h.takes hC hmono (hkind ▸ hplaced) htakes
    rw [markClean]
    split
    · exact h'.congr rfl rfl
    · exact h'
  | lost => exact (h.mono hmono).congr rfl rfl

theorem answers {q : Request} {x : Option Item} (h : item.Sound C id) (hC : Thins C)
    (hanswers : item.Answers now q x) : ∀ item', x = some item' → item'.Sound C id := by
  obtain ⟨n, hleaves⟩ := hanswers
  obtain ⟨active, daily, hour, all, hitem, -⟩ := Request.collect_item q now h.sorted
  rw [hitem] at hleaves
  refine Sound.leaves ?_ hC hleaves
  exact h.congr rfl rfl

end Item.Sound

namespace Cache

variable {C C' : Contents} {c c' : Cache} {now : Int} {q : Request}

/-- The contents of all cached items are as `C` says. -/
abbrev Sound (C : Contents) (c : Cache) : Prop := All (fun id item => item.Sound C id) c

namespace Sound

theorem sorted (h : c.Sound C) : All (fun _ item => item.history.Sorted) c :=
  fun id item hid => (h id item hid).sorted

theorem mono (h : c.Sound C) (hC : ∀ {id kind rs}, C id kind rs → C' id kind rs) : c.Sound C' :=
  fun id item hid => (h id item hid).mono hC

theorem finds (h : c.Sound C) (hC : Thins C) {item : Item} (hfinds : c.Finds now q item) :
    item.Sound C q.item := by
  rcases hfinds with hid | ⟨-, rfl⟩
  · exact h _ item hid
  · exact .empty hC _ _

theorem started (h : c.Sound C) (hC : Thins C) {next : Start}
    (hstarted : Started now q c next c') : c'.Sound C := by
  cases hstarted with
  | past _ _ hup => exact h.updates hup fun _ hx => by cases hx
  | refused item _ hfinds _ hup =>
    exact h.updates hup fun _ hx => by cases hx; exact (h.finds hC hfinds).congr rfl rfl
  | fills item _ _ hfinds _ _ _ hup =>
    exact h.updates hup fun _ hx => by cases hx; exact (h.finds hC hfinds).congr rfl rfl
  | answers item x _ hfinds _ _ _ hanswers hup =>
    refine h.updates hup (Item.Sound.answers ?_ hC hanswers)
    exact (h.finds hC hfinds).congr rfl rfl

/-- Records that were read enter the history of an item. -/
theorem finished (h : c.Sound C) (hC : Thins C) {fill : Fill} {item : Item}
    {result : Except StoreFailure Fetched} {answer : Option (List Record)}
    (hid : c.items[q.item]? = some item)
    (hread : ∀ fetched, result = .ok fetched → InOrder fetched.records ∧
      C q.item item.kind (below item.history fetched.records ++ item.history.records))
    (hfinished : Finished now q fill item c result answer c') : c'.Sound C := by
  have hitem := h _ item hid
  have hgrown : ∀ {fetched : Fetched} {taken : List Record} {g : History},
      result = .ok fetched → taken <:+ below item.history fetched.records → g.Tidy →
      g.records = taken ++ item.history.records →
      ({ item with history := g } : Item).Sound C q.item := by
    intro fetched taken g hok htaken htidy hrecords
    obtain ⟨ho, hcontents⟩ := hread fetched hok
    refine ⟨sorted_of_below hitem.sorted ho htidy htaken hrecords, ?_⟩
    change C q.item item.kind g.records
    rw [hrecords]
    exact hC.sublist hcontents (htaken.sublist.append_right _)
  cases hfinished with
  | lost _ g _ htidy hrecords hup =>
    refine h.updates hup fun _ hx => ?_
    cases hx
    rcases hrecords with hrecords | ⟨fetched, taken, hok, htaken, hrecords⟩
    · refine (hitem.thinned hC htidy ?_).congr rfl rfl
      rw [hrecords]
    · exact (hgrown hok htaken htidy hrecords).congr rfl rfl
  | answers fetched g x _ _ _ htidy hrecords hanswers hup =>
    have hsound := hgrown rfl List.suffix_rfl htidy hrecords
    refine h.updates hup (Item.Sound.answers ?_ hC hanswers)
    obtain ⟨all, covered, heq⟩ := mark_eq fill.extent fetched { item with history := g }
    rw [heq]
    exact hsound.congr rfl rfl

theorem finishBypass (h : c.Sound C) (hC : Thins C) (held : Bool)
    (result : Except StoreFailure (List Record)) : (c.finishBypass now q held result).Sound C := by
  rcases finishBypass_spec now q held result (fun item hid => h.sorted _ item hid)
    with ⟨hitems, -⟩ | ⟨-, item, x, hid, hleaves, hup⟩
  · exact h.congr hitems
  · exact h.updates hup (Item.Sound.leaves (h _ item hid) hC hleaves)

/-- A record that is written may enter the history of its item. -/
theorem ingestOne (h : c.Sound C) (hC : Thins C') (expireBefore : Int) {w : ItemRecord}
    (hmono : ∀ {id kind rs}, C id kind rs → C' id kind rs)
    (hplaced : ∀ {rs}, C w.item w.record.value.kind rs →
      C' w.item w.record.value.kind (placed w.record rs)) :
    (Cache.ingestOne now expireBefore c w).Sound C' := by
  rcases ingestOne_spec now expireBefore (fun item hid => h.sorted w.item item hid) with ⟨-, hitems⟩ |
    ⟨item, item', x, hid, hoffered, hleaves, hup⟩
  · exact (h.mono hmono).congr hitems
  · refine (h.mono hmono).updates hup (Item.Sound.leaves (Item.Sound.offered (C := C) ?_ hC hmono
      hplaced hoffered) hC hleaves)
    exact (h _ item hid).congr rfl rfl

theorem ingestOne_sorted (h : c.Sound fun _ _ _ => True) (expireBefore : Int) (w : ItemRecord) :
    (Cache.ingestOne now expireBefore c w).Sound fun _ _ _ => True :=
  h.ingestOne ⟨fun _ _ => trivial, fun _ _ => trivial⟩ expireBefore (fun _ => trivial)
    fun _ => trivial

theorem ingest (h : c.Sound C) (hC : Thins C) (now : Int) {writes : List ItemRecord}
    (hplaced : ∀ w ∈ writes, ∀ {rs}, C w.item w.record.value.kind rs →
      C w.item w.record.value.kind (placed w.record rs)) : (c.ingest now writes).Sound C := by
  rw [Cache.ingest]
  generalize c.expireBefore now = expireBefore
  induction writes generalizing c with
  | nil => exact h
  | cons w writes ih =>
    refine ih (h.ingestOne hC expireBefore (fun hC => hC) (hplaced w List.mem_cons_self)) ?_
    exact fun w' hw' => hplaced w' (List.mem_cons_of_mem w hw')

theorem requestRemoval (h : c.Sound C) (id : ItemId) : (c.requestRemoval id).Sound C := by
  rcases requestRemoval_spec c id with ⟨-, hitems⟩ | ⟨item, hid, hget⟩
  · exact h.congr hitems
  · refine h.updates (Updates.of_getElem? hget) fun item' hx => ?_
    split at hx
    · cases hx
      exact (h id item hid).congr rfl rfl
    · cases hx

theorem requestRemovals (h : c.Sound C) (ids : List ItemId) :
    (ids.foldl Cache.requestRemoval c).Sound C := by
  induction ids generalizing c with
  | nil => exact h
  | cons id ids ih => exact ih (h.requestRemoval id)

theorem reset (h : c.Sound C) : c.reset.Sound C := All.congr (h.requestRemovals c.ids) rfl

end Sound

end Cache

end HistoryCache
