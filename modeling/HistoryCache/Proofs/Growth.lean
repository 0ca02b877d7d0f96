import HistoryCache.Cache.Growth
import HistoryCache.Proofs.Ends
import HistoryCache.Proofs.Frame
import HistoryCache.Proofs.Insert
import HistoryCache.Proofs.Trim

/-!
# What enters and leaves an item

The operations on the history of an item that is out of the map, told by its flat list of records.

* `prepend_spec`: of the records below the history, the newest enter, and all of them on success.
* `write_spec`: a written record is put into the order of the history, or it is not cached and the
  item no longer vouches for its second (`Item.Takes`).
* `trim_spec`: a trim drops whole seconds from the oldest end, or does nothing.

What they allocate may evict other items (`Cache.Evicts`).  They fail for want of memory only.
-/

namespace HistoryCache

theorem History.capacityFor_pos (values : Nat) : 0 < History.capacityFor values := by
  rw [History.capacityFor]
  exact Nat.lt_of_lt_of_le (by decide) (Nat.le_max_left _ _)

namespace Cache

variable {c c' : Cache} {now : Int} {id : ItemId}

/-! ## Below the history -/

theorem openOldest_evicts (c : Cache) (now : Int) (id : ItemId) (waiting : List Record)
    (h : History) : Evicts id c (c.openOldest now id waiting h).2 := by
  have hcharge := charge_evicts c now id
    (Chunk.bytes (History.capacityFor (h.size + waiting.length)))
  rw [openOldest]
  split
  · exact Evicts.refl
  · simp only []
    split <;> (next heq => rw [heq] at hcharge; exact hcharge)

theorem openOldest_ok {waiting : List Record} {h g : History} (ht : h.Tidy)
    (hopen : c.openOldest now id waiting h = (.ok g, c')) :
    ∃ is, g.Loose is ∧ g.hasRoom ∧ g.records = h.records := by
  rw [openOldest] at hopen
  split at hopen
  · next hroom =>
    cases hopen
    exact ⟨_, ht.loose, hroom, rfl⟩
  · next hroom =>
    simp only [] at hopen
    split at hopen
    · cases hopen
      exact ht.addOldest hroom (History.capacityFor_pos _)
    · cases hopen

theorem openOldest_error {waiting : List Record} {h : History} {e : CacheFailure}
    (hopen : c.openOldest now id waiting h = (.error e, c')) : ∃ n, e = .outOfMemory n := by
  rw [openOldest] at hopen
  split at hopen
  · cases hopen
  · simp only [] at hopen
    split at hopen
    · cases hopen
    · next heq =>
      cases hopen
      exact ⟨_, charge_error heq⟩

/-- Records are put below a history one by one.  Those that were put there before a failure stay. -/
theorem fill_spec {rs : List Record} {h h' : History} {result : Except CacheFailure Unit}
    (ht : h.Tidy) (hfill : fill now id rs h c = (result, h', c')) :
    h'.Tidy ∧ Evicts id c c' ∧ ∃ taken, taken <+: rs ∧
      h'.records = taken.reverse ++ h.records ∧
      (result = .ok () ∧ taken = rs ∨ ∃ n, result = .error (.outOfMemory n)) := by
  induction rs generalizing c h with
  | nil =>
    cases hfill
    exact ⟨ht, Evicts.refl, [], List.nil_prefix, rfl, Or.inl ⟨rfl, rfl⟩⟩
  | cons r older ih =>
    rw [fill] at hfill
    have hopens := openOldest_evicts c now id (r :: older) h
    split at hfill
    · next e c₁ heq =>
      cases hfill
      rw [heq] at hopens
      obtain ⟨n, rfl⟩ := openOldest_error heq
      exact ⟨ht, hopens, [], List.nil_prefix, rfl, Or.inr ⟨n, rfl⟩⟩
    · next g c₁ heq =>
      rw [heq] at hopens
      obtain ⟨is, hloose, hroom, hrecords⟩ := openOldest_ok ht heq
      have hholds := holdValue_evicts c₁ now id r.value
      split at hfill
      · next value c₂ heq₂ =>
        rw [heq₂] at hholds
        obtain ⟨hpush, hpushed⟩ := hloose.pushOldest hroom ⟨r.time, value⟩
        rw [(holdValue_ok heq₂).2] at hpushed
        obtain ⟨ht', hev, taken, hprefix, htaken, hresult⟩ := ih hpush hfill
        refine ⟨ht', (hopens.trans hholds).trans hev, r :: taken,
          List.cons_prefix_cons.2 ⟨rfl, hprefix⟩, ?_, ?_⟩
        · rw [htaken, hpushed, hrecords, List.reverse_cons, List.append_assoc]
          rfl
        · rcases hresult with ⟨hok, rfl⟩ | herror
          · exact Or.inl ⟨hok, rfl⟩
          · exact Or.inr herror
      · next e c₂ heq₂ =>
        rw [heq₂] at hholds
        obtain ⟨n, rfl⟩ := holdValue_error heq₂
        obtain ⟨htidy, hdropped, -⟩ := hloose.dropEmpty
        generalize g.dropEmpty = dropped at hfill htidy hdropped
        cases hfill
        refine ⟨htidy, (hopens.trans hholds).trans (Evicts.of_items (items_release _ _)), [],
          List.nil_prefix, ?_, Or.inr ⟨n, rfl⟩⟩
        rw [hdropped, hrecords]
        rfl

/-- The records that belong below a history. -/
def below (h : History) (records : List Record) : List Record :=
  records.filter fun r => h.records.head?.all fun oldest => decide (r.sec < oldest.sec)

theorem belowHistory_eq {h : History} (ht : h.Tidy) {records : List Record}
    (ho : InOrder records) : belowHistory h records = (below h records).reverse := by
  rw [belowHistory, ht.oldest?_eq, below]
  cases h.records.head? with
  | none => simp
  | some oldest =>
    have hdown : records.reverse.Pairwise fun a b =>
        decide (oldest.sec ≤ b.sec) → decide (oldest.sec ≤ a.sec) := by
      rw [List.pairwise_reverse]
      refine ho.imp fun {a b} hab hle => ?_
      have := Record.sec_le_of_le hab
      rw [decide_eq_true_iff] at hle ⊢
      omega
    simp only [Option.all_some]
    rw [dropWhile_eq_filter_of_pairwise hdown, List.filter_reverse]
    congr 1
    refine List.filter_congr fun r _ => ?_
    rw [← decide_not, decide_eq_decide]
    omega

/-- **Older records** enter below the history, the newest of them first. -/
theorem prepend_spec {records : List Record} {item item' : Item}
    {result : Except CacheFailure Unit} (ht : item.history.Tidy) (ho : InOrder records)
    (hprepend : c.prepend now id records item = (result, item', c')) :
    ∃ h taken, item' = { item with history := h } ∧ h.Tidy ∧ Evicts id c c' ∧
      taken <:+ below item.history records ∧ h.records = taken ++ item.history.records ∧
      (result = .ok () ∧ taken = below item.history records ∨
        ∃ n, result = .error (.outOfMemory n)) := by
  rw [prepend] at hprepend
  generalize hfill : fill now id (belowHistory item.history records) item.history c = filled
    at hprepend
  obtain ⟨result', h, c₁⟩ := filled
  cases hprepend
  obtain ⟨ht', hev, taken, hprefix, htaken, hresult⟩ := fill_spec ht hfill
  rw [belowHistory_eq ht ho] at hprefix hresult
  refine ⟨h, taken.reverse, rfl, ht', hev, ?_, htaken, ?_⟩
  · rw [← List.reverse_prefix, List.reverse_reverse]
    exact hprefix
  · rcases hresult with ⟨hok, rfl⟩ | herror
    · exact Or.inl ⟨hok, List.reverse_reverse _⟩
    · exact Or.inr herror

/-! ## Above the history -/

theorem openNewest_evicts (c : Cache) (now : Int) (id : ItemId) (h : History) :
    Evicts id c (c.openNewest now id h).2 := by
  have hcharge := charge_evicts c now id (Chunk.bytes (History.capacityFor (h.size + 1)))
  rw [openNewest]
  split
  · exact Evicts.refl
  · simp only []
    split <;> (next heq => rw [heq] at hcharge; exact hcharge)

theorem openNewest_ok {h g : History} {top : Spot} (ht : h.Tidy)
    (hopen : c.openNewest now id h = (.ok (top, g), c')) : h.Opens top g := by
  rw [openNewest] at hopen
  rcases ht.reserve? with ⟨top', g', hreserve, hopens⟩ | ⟨hreserve, hfull⟩
  · rw [hreserve] at hopen
    cases hopen
    exact hopens
  · rw [hreserve] at hopen
    simp only [] at hopen
    split at hopen
    · have hopens := ht.addNewest hfull (History.capacityFor_pos (h.size + 1))
      generalize h.addNewest _ = opened at hopen hopens
      cases hopen
      exact hopens
    · cases hopen

theorem openNewest_error {h : History} {e : CacheFailure}
    (hopen : c.openNewest now id h = (.error e, c')) : ∃ n, e = .outOfMemory n := by
  rw [openNewest] at hopen
  split at hopen
  · cases hopen
  · simp only [] at hopen
    split at hopen
    · cases hopen
    · next heq =>
      cases hopen
      exact ⟨_, charge_error heq⟩

/-- The record is copied and a slot above the history is taken into use, or there is no memory for
it. -/
theorem reserve_spec {r : Record} {h : History}
    {result : Except CacheFailure (CachedRecord × Spot × History)}
    (ht : h.Tidy) (hreserve : c.reserve now id r h = (result, c')) :
    Evicts id c c' ∧
      ((∃ kept top g, result = .ok (kept, top, g) ∧ kept.toRecord = r ∧ h.Opens top g) ∨
        ∃ n, result = .error (.outOfMemory n)) := by
  have hholds := holdValue_evicts c now id r.value
  rw [reserve] at hreserve
  split at hreserve
  · next e c₁ heq =>
    cases hreserve
    rw [heq] at hholds
    obtain ⟨n, rfl⟩ := holdValue_error heq
    exact ⟨hholds, Or.inr ⟨n, rfl⟩⟩
  · next value c₁ heq =>
    rw [heq] at hholds
    have hopens := openNewest_evicts c₁ now id h
    split at hreserve
    · next opened c₂ heq₂ =>
      cases hreserve
      rw [heq₂] at hopens
      exact ⟨hholds.trans hopens, Or.inl ⟨_, opened.1, opened.2, rfl,
        (holdValue_ok heq).2, openNewest_ok ht heq₂⟩⟩
    · next e c₂ heq₂ =>
      cases hreserve
      rw [heq₂] at hopens
      obtain ⟨n, rfl⟩ := openNewest_error heq₂
      exact ⟨(hholds.trans hopens).trans (Evicts.of_items (items_releaseValue _ _)),
        Or.inr ⟨n, rfl⟩⟩

/-- Some records with another in its place, right after the last one that is not later. -/
def placed (r : Record) (rs : List Record) : List Record :=
  rs.filter (fun x => decide (x.time ≤ r.time)) ++
    r :: rs.filter fun x => !decide (x.time ≤ r.time)

theorem mem_placed {r x : Record} {rs : List Record} : x ∈ placed r rs ↔ x ∈ rs ∨ x = r := by
  rw [placed, List.mem_append, List.mem_cons, List.mem_filter, List.mem_filter]
  by_cases hx : x.time ≤ r.time
  · simp only [hx, decide_true, and_true, Bool.not_true, Bool.false_eq_true, and_false, or_false]
  · simp only [hx, decide_false, Bool.false_eq_true, and_false, Bool.not_false, and_true, false_or]
    exact or_comm

theorem perm_placed (r : Record) (rs : List Record) : (placed r rs).Perm (r :: rs) :=
  List.perm_middle.trans ((List.filter_append_perm _ rs).cons r)

theorem placed_eq_append {r : Record} {rs : List Record}
    (h : ∀ x ∈ rs, x.time ≤ r.time) : placed r rs = rs ++ [r] := by
  rw [placed, List.filter_eq_self.2 (by simpa using h), List.filter_eq_nil_iff.2 (by simpa using h)]

theorem append_spec {r : Record} {item item' : Item} {result : Except CacheFailure Unit}
    (ht : item.history.Tidy) (happend : c.append now id r item = (result, item', c')) :
    Evicts id c c' ∧ ((result = .ok () ∧ ∃ h, item' = { item with history := h } ∧ h.Tidy ∧
        h.records = item.history.records ++ [r]) ∨
      item' = item ∧ ∃ n, result = .error (.outOfMemory n)) := by
  rw [append] at happend
  split at happend
  · next e c₁ heq =>
    cases happend
    obtain ⟨hev, ⟨_, _, _, hok, -⟩ | ⟨n, herror⟩⟩ := reserve_spec ht heq
    · cases hok
    · cases herror
      exact ⟨hev, Or.inr ⟨rfl, n, rfl⟩⟩
  · next kept top g c₁ heq =>
    cases happend
    obtain ⟨hev, ⟨_, _, _, hok, rfl, hopens⟩ | ⟨n, herror⟩⟩ := reserve_spec ht heq
    · cases hok
      obtain ⟨hput, hrecords⟩ := hopens.put ht kept
      exact ⟨hev, Or.inl ⟨rfl, _, rfl, hput, hrecords⟩⟩
    · cases herror

theorem insert_spec {r old : Record} {item item' : Item} {result : Except CacheFailure Unit}
    (ht : item.history.Tidy) (ho : InOrder item.history.records)
    (hold : old ∈ item.history.records) (hle : old.time ≤ r.time)
    (hinsert : c.insert now id r item = (result, item', c')) :
    Evicts id c c' ∧ ((result = .ok () ∧ ∃ h, item' = { item with history := h } ∧ h.Tidy ∧
        h.records = placed r item.history.records) ∨
      item' = item ∧ ∃ n, result = .error (.outOfMemory n)) := by
  obtain ⟨after, hafter⟩ := Option.isSome_iff_exists.1 (ht.position?_isSome ho hold hle)
  rw [insert, hafter] at hinsert
  simp only [] at hinsert
  split at hinsert
  · next e c₁ heq =>
    cases hinsert
    obtain ⟨hev, ⟨_, _, _, hok, -⟩ | ⟨n, herror⟩⟩ := reserve_spec ht heq
    · cases hok
    · cases herror
      exact ⟨hev, Or.inr ⟨rfl, n, rfl⟩⟩
  · next kept top g c₁ heq =>
    obtain ⟨hev, ⟨_, _, _, hok, rfl, hopens⟩ | ⟨n, herror⟩⟩ := reserve_spec ht heq
    · cases hok
      obtain ⟨p, g', hroom, hput, hrecords⟩ := hopens.insertAt ht ho kept hafter
      rw [hroom] at hinsert
      cases hinsert
      exact ⟨hev, Or.inl ⟨rfl, _, rfl, hput, hrecords⟩⟩
    · cases herror

/-! ## A written record -/

end Cache

/-- What becomes of an item that takes a written record without failure. -/
inductive Item.Takes (r : Record) (item : Item) : Item → Prop
  /-- The record is put into the order of the history, none of which is later than all others. -/
  | placed (h : History) (htidy : h.Tidy)
      (hrecords : h.records = Cache.placed r item.history.records)
      (hnotBelow : ∀ oldest, item.history.records.head? = some oldest → oldest.time ≤ r.time)
      (hvouches : item.history.records = [] → item.cachedAll = true ∨
        ∀ s, item.coveredFrom = some s → s ≤ r.sec) :
      Takes r item { item with history := h }
  /-- The record is from before the seconds that an empty item vouches for. -/
  | ignored (s : Int) (hempty : item.history.records = []) (hnotAll : item.cachedAll = false)
      (hcovered : item.coveredFrom = some s) (hbefore : r.sec < s) :
      Takes r item { item with tailWrites := item.tailWrites + 1 }
  /-- The record is from before the history, which loses what it holds of its second. -/
  | dropped (h : History) (oldest : Record) (htidy : h.Tidy)
      (holdest : item.history.records.head? = some oldest) (hbelow : ¬ oldest.time ≤ r.time)
      (hrecords : h.records = item.history.records.dropWhile fun x => decide (x.sec ≤ r.sec)) :
      Takes r item
        { item with
          tailWrites := item.tailWrites + 1
          cachedAll := false
          history := h
          coveredFrom :=
            if item.coveredFrom.all fun s => decide (s ≤ r.sec) then some (r.sec + 1)
            else item.coveredFrom
          state := if h.records = [] then .removePending else item.state }

namespace Cache

variable {c c' : Cache} {now : Int} {id : ItemId}

theorem dropThrough_spec {r oldest : Record} {item item' : Item} (ht : item.history.Tidy)
    (holdest : item.history.records.head? = some oldest) (hbelow : ¬ oldest.time ≤ r.time)
    (hdrop : c.dropThrough r.sec { item with tailWrites := item.tailWrites + 1 } = (item', c')) :
    c'.items = c.items ∧ item.Takes r item' := by
  obtain ⟨htidy, -, hrecords⟩ := ht.dropThrough r.sec
  rw [dropThrough] at hdrop
  simp only [] at hdrop
  generalize item.history.dropThrough r.sec = dropped at hdrop htidy hrecords
  cases hdrop
  refine ⟨items_release _ _, ?_⟩
  have hempty : dropped.2.isEmpty = decide (dropped.2.records = []) := by
    rw [Bool.eq_iff_iff, htidy.isEmpty_iff, decide_eq_true_iff]
  have htakes : item.Takes r _ := .dropped dropped.2 oldest htidy holdest hbelow hrecords
  simpa only [hempty, decide_eq_true_iff] using htakes

/-- An empty item takes a record, unless that is from before the seconds that it vouches for. -/
theorem write_empty_spec {r : Record} {item item' : Item} {result : Except CacheFailure Unit}
    (ht : item.history.Tidy) (hempty : item.history.records = [])
    (hwrite : c.write now id r item = (result, item', c')) :
    Evicts id c c' ∧ (result = .ok () ∧ item.Takes r item' ∨
      item' = item ∧ ∃ n, result = .error (.outOfMemory n)) := by
  rw [write, ht.newest?_eq, ht.oldest?_eq, hempty] at hwrite
  simp only [List.getLast?_nil, List.head?_nil] at hwrite
  split at hwrite
  · next hguard =>
    cases hwrite
    simp only [Bool.and_eq_true, Bool.not_eq_eq_eq_not, Bool.not_true, Option.any_eq_true,
      decide_eq_true_eq] at hguard
    obtain ⟨hnot, s, hs, hlt⟩ := hguard
    exact ⟨Evicts.refl, Or.inl ⟨rfl, .ignored s hempty hnot hs hlt⟩⟩
  · next hguard =>
    obtain ⟨hev, ⟨hok, h, rfl, htidy, hrecords⟩ | herror⟩ := append_spec ht hwrite
    · refine ⟨hev, Or.inl ⟨hok, .placed h htidy ?_ ?_ fun _ => ?_⟩⟩
      · rw [hrecords, hempty]
        rfl
      · rw [hempty]
        rintro _ ⟨⟩
      · by_cases hall : item.cachedAll
        · exact Or.inl hall
        · right
          intro s hs
          simpa [hall, hs] using hguard
    · exact ⟨hev, Or.inr herror⟩

/-- **A written record** is taken as its place says, or there is no memory for it. -/
theorem write_spec {r : Record} {item item' : Item} {result : Except CacheFailure Unit}
    (ht : item.history.Tidy) (ho : InOrder item.history.records)
    (hwrite : c.write now id r item = (result, item', c')) :
    Evicts id c c' ∧ (result = .ok () ∧ item.Takes r item' ∨
      item' = item ∧ ∃ n, result = .error (.outOfMemory n)) := by
  by_cases hempty : item.history.records = []
  · exact write_empty_spec ht hempty hwrite
  obtain ⟨newest, hnewest⟩ := Option.ne_none_iff_exists'.1 (mt List.getLast?_eq_none_iff.1 hempty)
  obtain ⟨oldest, holdest⟩ := Option.ne_none_iff_exists'.1 (mt List.head?_eq_none_iff.1 hempty)
  rw [write, ht.newest?_eq, ht.oldest?_eq, hnewest, holdest] at hwrite
  simp only [] at hwrite
  split at hwrite
  · -- not before the newest record
    next hle =>
    have hall : ∀ x ∈ item.history.records, x.time ≤ r.time := fun x hx =>
      Timestamp.le_trans (ho.le_last hnewest x hx) hle
    obtain ⟨hev, ⟨hok, h, rfl, htidy, hrecords⟩ | herror⟩ := append_spec ht hwrite
    · refine ⟨hev, Or.inl ⟨hok, .placed h htidy ?_ ?_ fun h => absurd h hempty⟩⟩
      · rw [hrecords, placed_eq_append hall]
      · intro o ho
        exact hall o (List.mem_of_head? ho)
    · exact ⟨hev, Or.inr herror⟩
  · split at hwrite
    · -- not before the oldest record
      next hle =>
      obtain ⟨hev, ⟨hok, h, rfl, htidy, hrecords⟩ | herror⟩ :=
        insert_spec ht ho (List.mem_of_head? holdest) hle hwrite
      · refine ⟨hev, Or.inl ⟨hok, .placed h htidy hrecords ?_ fun h => absurd h hempty⟩⟩
        intro o ho
        rw [holdest, Option.some.injEq] at ho
        exact ho ▸ hle
      · exact ⟨hev, Or.inr herror⟩
    · next hbelow =>
      generalize hdrop : c.dropThrough r.sec { item with tailWrites := item.tailWrites + 1 } =
        dropped at hwrite
      cases hwrite
      obtain ⟨hitems, htakes⟩ := dropThrough_spec ht holdest hbelow hdrop
      exact ⟨Evicts.of_items hitems, Or.inl ⟨rfl, htakes⟩⟩

/-! ## Trimming -/

/-- **A trim** drops whole seconds from before the active range, or does nothing. -/
theorem trim_spec {item item' : Item} (ht : item.history.Tidy)
    (ho : InOrder item.history.records) (htrim : c.trim now item = (item', c')) :
    c'.items = c.items ∧ (item' = item ∨ ∃ sec h,
      item' = { item with history := h, coveredFrom := some (sec + 1), cachedAll := false } ∧
      item.activeRange ≠ 0 ∧ sec < item.boundary now ∧ h.Tidy ∧ h.records ≠ [] ∧
      (∃ r ∈ item.history.records, r.sec = sec) ∧
      h.records = item.history.records.filter fun r => decide (sec < r.sec)) := by
  rw [trim] at htrim
  split at htrim
  · cases htrim
    exact ⟨rfl, Or.inl rfl⟩
  · next hrange =>
    rcases ht.trim ho (item.boundary now) with hnone |
      ⟨sec, gone, h, hsome, htrimmed⟩
    · rw [hnone] at htrim
      cases htrim
      exact ⟨rfl, Or.inl rfl⟩
    · rw [hsome] at htrim
      cases htrim
      exact ⟨items_release _ _, Or.inr ⟨sec, h, rfl, hrange, htrimmed.before, htrimmed.tidy,
        htrimmed.left, htrimmed.dropped, htrimmed.records⟩⟩

end Cache

end HistoryCache
