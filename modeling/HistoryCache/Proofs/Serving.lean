import HistoryCache.Proofs.Steps

/-!
# Steps of a request

What a request does with its item between its reads of the store, and what it answers.

* `collect_eq`: the records that answer a request are those that are wanted of the history
  (`Request.wanted`), and the range of its item is updated for them.
* `start_spec`: a request begins in one of four ways (`Cache.Started`).
* `finishFill_spec`: what was read is put below the history and the answer comes from there, or the
  item is to be removed (`Cache.Finished`).
-/

namespace HistoryCache

namespace Request

/-- Whether a request asks for records like one: at or before its time, inside its window. -/
def Admits (q : Request) (r : Record) : Prop :=
  r.time ≤ q.upTo ∧ (q.count ≠ 0 ∧ q.seconds = 0 ∨ q.edge < r.sec)

instance (q : Request) (r : Record) : Decidable (q.Admits r) :=
  inferInstanceAs (Decidable (_ ∧ _))

/-- What is wanted of some records in the order of their times, newest first. -/
def wanted (q : Request) (rs : List Record) : List Record :=
  let found := (rs.filter fun r => decide (q.Admits r)).reverse
  if q.count = 0 then found else found.take q.count

theorem mem_of_wanted {q : Request} {rs : List Record} {r : Record} (h : r ∈ q.wanted rs) :
    r ∈ rs ∧ q.Admits r := by
  have hfound : r ∈ (rs.filter fun r => decide (q.Admits r)).reverse := by
    rw [wanted] at h
    split at h
    · exact h
    · exact List.mem_of_mem_take h
  exact (List.mem_filter.1 (List.mem_reverse.1 hfound)).imp_right of_decide_eq_true

/-- Whether a request with no window has found too few records, and so has seen all there is. -/
def FallsShort (q : Request) (rs : List Record) : Prop :=
  q.count ≠ 0 ∧ q.seconds = 0 ∧ (q.wanted rs).length < q.count

instance (q : Request) (rs : List Record) : Decidable (q.FallsShort rs) :=
  inferInstanceAs (Decidable (_ ∧ _ ∧ _))

/-- The seconds of history that an answer takes: down to its oldest record if it has the number that
is asked for, and otherwise down to the end of the window. -/
def rangeFor (q : Request) (now : Int) (records : List Record) : Int :=
  match records.getLast? with
  | some oldest =>
    if q.count ≠ 0 ∧ records.length = q.count then now - oldest.sec + 1
    else q.seconds + now - q.upTo.sec + 1
  | none => q.seconds + now - q.upTo.sec + 1

theorem takeWhile_back {h : History} (hs : h.Sorted) (t : Timestamp) {P : Record → Bool}
    (hP : ∀ a b, a.sec ≤ b.sec → P a → P b) : (h.backFrom t).takeWhile P =
      (h.records.filter fun r => decide (r.time ≤ t) && P r).reverse := by
  have hdown : ((h.records.filter fun r => decide (r.time ≤ t)).reverse).Pairwise
      fun a b => P b → P a := by
    rw [List.pairwise_reverse]
    exact (hs.inOrder.filter _).imp fun hab => hP _ _ (Record.sec_le_of_le hab)
  rw [hs.tidy.backFrom_eq hs.inOrder, takeWhile_eq_filter_of_pairwise hdown, List.filter_reverse,
    List.filter_filter]
  congr 1
  exact List.filter_congr fun r _ => Bool.and_comm _ _

/-- **An answer** is what is wanted of the cached records.  Its item takes note of its range, or of
that all there is was seen. -/
theorem collect_eq (q : Request) (now : Int) {item : Item} (hs : item.history.Sorted) :
    q.collect now item = (q.wanted item.history.records,
      if q.FallsShort item.history.records then
        { item with cachedAll := true, activeRange := 0, dailyRange := 0 }
      else item.updateRange (wrap (q.rangeFor now (q.wanted item.history.records))) now) := by
  rw [collect]
  split
  · next hcount =>
    have hfound : ((item.history.backFrom q.upTo).takeWhile fun r =>
        decide (q.edge < r.sec)) = q.wanted item.history.records := by
      rw [takeWhile_back hs, wanted, if_pos hcount]
      · congr 1
        refine List.filter_congr fun r _ => ?_
        rw [← Bool.decide_and, decide_eq_decide, Admits]
        simp [hcount]
      · intro a b hab ha
        rw [decide_eq_true_iff] at ha ⊢
        omega
    have hrange : q.rangeFor now (q.wanted item.history.records) =
        q.seconds + now - q.upTo.sec + 1 := by
      rw [rangeFor]
      split
      · exact if_neg fun h => h.1 hcount
      · rfl
    rw [Item.collectWindow, ← edge, hfound, hrange, if_neg fun hshort => hshort.1 hcount]
  · next hcount =>
    have hfound : ((item.history.backFrom q.upTo).takeWhile
        fun r => q.seconds == 0 || decide (q.edge < r.sec)).take q.count =
        q.wanted item.history.records := by
      rw [takeWhile_back hs, wanted, if_neg hcount]
      · congr 2
        refine List.filter_congr fun r _ => ?_
        rw [Bool.eq_iff_iff]
        simp [Admits, hcount]
      · intro a b hab ha
        simp only [Bool.or_eq_true, beq_iff_eq, decide_eq_true_eq] at ha ⊢
        omega
    rw [Item.collectCount, ← edge, hfound]
    simp only [FallsShort, rangeFor, ne_eq, hcount, not_false_eq_true, true_and, and_comm]
    split <;> rfl

/-- **The answer** from the cached records is what is wanted of them. -/
theorem collect_records (q : Request) (now : Int) {item : Item} (hs : item.history.Sorted) :
    (q.collect now item).1 = q.wanted item.history.records := by
  rw [q.collect_eq now hs]

theorem updateRange_eq (item : Item) (range now : Int) : ∃ active daily hour,
    item.updateRange range now =
      { item with activeRange := active, dailyRange := daily, syncHour := hour } := by
  rw [Item.updateRange]
  split
  · exact ⟨_, _, _, rfl⟩
  · exact ⟨item.activeRange, _, item.syncHour, rfl⟩

/-- An answer updates the range of its item, and takes note if all there is was seen. -/
theorem collect_item (q : Request) (now : Int) {item : Item} (hs : item.history.Sorted) :
    ∃ active daily hour all, (q.collect now item).2 =
        { item with
          activeRange := active
          dailyRange := daily
          syncHour := hour
          cachedAll := all } ∧
      (all = true ↔ item.cachedAll = true ∨ q.FallsShort item.history.records) := by
  rw [q.collect_eq now hs]
  simp only []
  split
  · next hshort => exact ⟨0, 0, item.syncHour, true, rfl, by simp [hshort]⟩
  · next hshort =>
    obtain ⟨active, daily, hour, heq⟩ := updateRange_eq item _ now
    exact ⟨active, daily, hour, item.cachedAll, heq, by simp [hshort]⟩

end Request

/-- What becomes of an item that answers a request. -/
def Item.Answers (now : Int) (q : Request) (item : Item) (x : Option Item) : Prop :=
  ∃ n, ({ (q.collect now item).2 with hits := n, lastAccessed := now } : Item).Leaves now x

namespace Cache

variable {c c' : Cache} {now : Int} {q : Request} {item : Item}

/-- The item that a request begins with. -/
def Finds (now : Int) (q : Request) (c : Cache) (item : Item) : Prop :=
  c.items[q.item]? = some item ∨ c.items[q.item]? = none ∧ item = Item.empty q.kind now

theorem Finds.eq_of_some {found : Item} (h : c.Finds now q found)
    (hid : c.items[q.item]? = some item) : found = item := by
  rcases h with hfound | ⟨hnone, -⟩
  · exact Option.some.inj (hfound.symm.trans hid)
  · rw [hid] at hnone
    cases hnone

theorem getElem?_account (c : Cache) (now : Int) (id : ItemId) (hits misses : Nat) (j : ItemId) :
    (c.account now (some id) hits misses).items[j]? =
      if id = j then
        (c.items[j]?).map fun item => { item with hits := item.hits + hits, lastAccessed := now }
      else c.items[j]? := by
  rw [account]
  exact getElem?_modify c id _ j

theorem answer_spec (c : Cache) (now : Int) (q : Request) (read : Nat) {item : Item}
    (hs : item.history.Sorted) :
    (c.answer now q read item).1 = q.wanted item.history.records ∧
      ∃ x, item.Answers now q x ∧ Updates q.item x c (c.answer now q read item).2 := by
  obtain ⟨active, daily, hour, all, hitem, -⟩ := Request.collect_item q now hs
  rw [answer]
  refine ⟨Request.collect_records q now hs, ?_⟩
  simp only []
  generalize (q.collect now item).1.length - min read (q.collect now item).1.length = hits
  generalize min read (q.collect now item).1.length = misses
  have hin := getElem?_account (c.checkIn q.item (q.collect now item).2) now q.item hits misses
  generalize (c.checkIn q.item (q.collect now item).2).account now (some q.item) hits misses = c₁
    at hin ⊢
  have hself := hin q.item
  rw [if_pos rfl, getElem?_checkIn, if_pos rfl, Option.map_some] at hself
  obtain ⟨x, hx, hget⟩ := unpin_spec now hself (by rw [hitem]; exact hs)
  refine ⟨x, ⟨_, hx⟩, Updates.of_getElem? fun j => ?_⟩
  rw [hget]
  split
  · rfl
  · next hj => rw [hin, if_neg hj, getElem?_checkIn, if_neg hj]

/-- What the start of a request leads to. -/
inductive Started (now : Int) (q : Request) (c : Cache) : Start → Cache → Prop
  | past (c' : Cache) (hnone : c.items[q.item]? = none) (hup : Updates q.item none c c') :
      Started now q c (.bypass false) c'
  | refused (item : Item) (c' : Cache) (hfinds : c.Finds now q item)
      (hunfit : item.state = .removePending ∨ item.kind ≠ q.kind)
      (hup : Updates q.item
        (some { item with state := .removePending, pins := item.pins + 1 }) c c') :
      Started now q c (.bypass true) c'
  | fills (item : Item) (fill : Fill) (c' : Cache) (hfinds : c.Finds now q item)
      (hstate : item.state ≠ .removePending) (hkind : item.kind = q.kind)
      (hmissing : q.missing? { item with pins := item.pins + 1 } = some fill)
      (hup : Updates q.item (some { item with pins := item.pins + 1 }) c c') :
      Started now q c (.fill fill) c'
  | answers (item : Item) (x : Option Item) (c' : Cache) (hfinds : c.Finds now q item)
      (hstate : item.state ≠ .removePending) (hkind : item.kind = q.kind)
      (hmissing : q.missing? { item with pins := item.pins + 1 } = none)
      (hanswers : { item with pins := item.pins + 1 }.Answers now q x)
      (hup : Updates q.item x c c') :
      Started now q c (.answer (q.wanted item.history.records)) c'

theorem create_spec {id : ItemId} {kind : Kind} {result : Except CacheFailure Unit}
    (h : c.create now id kind = (result, c')) :
    (∃ e, result = .error e) ∧ Evicts id c c' ∨
      result = .ok () ∧ Updates id (some (Item.empty kind now)) c c' := by
  have hcharge := charge_evicts c now id Item.entryBytes
  rw [create] at h
  split at h
  · next c₁ heq =>
    cases h
    rw [heq] at hcharge
    refine Or.inr ⟨rfl, hcharge.updates.trans (Updates.congr (Updates.of_getElem? (getElem?_checkIn c₁ id _)) rfl)⟩
  · next e c₁ heq =>
    cases h
    rw [heq] at hcharge
    exact Or.inl ⟨⟨e, rfl⟩, hcharge⟩

theorem ensure_spec {found : Bool} (h : c.ensure now q = (found, c')) :
    found = false ∧ c.items[q.item]? = none ∧ Updates q.item none c c' ∨
      found = true ∧ ∃ item, c.Finds now q item ∧ Updates q.item (some item) c c' := by
  rw [ensure] at h
  have hmem := Std.ExtTreeMap.contains_eq_isSome_getElem? (t := c.items) (a := q.item)
  split at h
  · next hin =>
    cases h
    rw [hmem] at hin
    obtain ⟨item, hitem⟩ := Option.isSome_iff_exists.1 hin
    exact Or.inr ⟨rfl, item, Or.inl hitem, hitem ▸ Updates.of_items rfl⟩
  · next hout =>
    have hnone : c.items[q.item]? = none := by
      rw [hmem] at hout
      simpa using hout
    split at h
    · cases h
      exact Or.inl ⟨rfl, hnone, hnone ▸ Updates.of_items rfl⟩
    · split at h
      · next c₁ heq =>
        cases h
        rcases create_spec heq with ⟨⟨e, herror⟩, -⟩ | ⟨-, hup⟩
        · cases herror
        · exact Or.inr ⟨rfl, _, Or.inr ⟨hnone, rfl⟩, hup⟩
      · next e c₁ heq =>
        cases h
        rcases create_spec heq with ⟨-, hev⟩ | ⟨hok, -⟩
        · exact Or.inl ⟨rfl, hnone, (hnone ▸ hev.updates).congr rfl⟩
        · cases hok

/-- An item that is given up is to be removed. -/
theorem giveUp_spec {c₁ : Cache} (q : Request) (e : Failure)
    (hup : Updates q.item (some item) c c₁) :
    Updates q.item (some { item with state := .removePending }) c (c₁.giveUp q e) := by
  refine hup.trans (Updates.of_getElem? fun j => ?_)
  rw [giveUp, getElem?_modify]
  show (if q.item = j then (c₁.items[j]?).map Item.markRemove else c₁.items[j]?) = _
  by_cases hj : q.item = j
  · rw [if_pos hj, if_pos hj, ← hj, hup.1]
    rfl
  · rw [if_neg hj, if_neg hj]

theorem pin_spec {c₁ : Cache} {id : ItemId} (hup : Updates id (some item) c c₁) :
    Updates id (some { item with pins := item.pins + 1 }) c (c₁.pin id) := by
  refine hup.trans (Updates.of_getElem? fun j => ?_)
  rw [getElem?_pin]
  by_cases hj : id = j
  · rw [if_pos hj, if_pos hj, ← hj, hup.1]
    rfl
  · rw [if_neg hj, if_neg hj]

/-- An item serves a request of its kind until it is to be removed. -/
theorem servable_spec (hid : c.items[q.item]? = some item) :
    (item.state = .removePending ∨ item.kind ≠ q.kind) ∧ (∃ e, c.servable q = .error e) ∨
      item.state ≠ .removePending ∧ item.kind = q.kind ∧ c.servable q = .ok item := by
  rw [servable, hid]
  simp only []
  by_cases hstate : item.state = .removePending
  · exact Or.inl ⟨Or.inl hstate, _, if_pos hstate⟩
  by_cases hkind : item.kind = q.kind
  · right
    refine ⟨hstate, hkind, ?_⟩
    rw [if_neg hstate, if_neg (not_not.2 hkind)]
  · left
    refine ⟨Or.inr hkind, .kindMismatch q.item item.kind q.kind, ?_⟩
    rw [if_neg hstate, if_pos hkind]

/-- **A request begins** with an answer, a reading below the history, or a way past the cache. -/
theorem start_spec {next : Start} (hall : All (fun _ item => item.history.Sorted) c)
    (h : c.start now q = (next, c')) : Started now q c next c' := by
  rw [start] at h
  have hwarn : (if c.mode = .lowMemory then c.warnLowMemory now else c).items = c.items := by
    split
    · exact items_warnLowMemory c now
    · rfl
  simp only [] at h
  generalize (if c.mode = .lowMemory then c.warnLowMemory now else c) = c₀ at h hwarn
  have hbase : Updates q.item c.items[q.item]? c c₀ := Updates.of_items hwarn
  generalize hensure : c₀.ensure now q = ensured at h
  obtain ⟨found, c₁⟩ := ensured
  rcases ensure_spec hensure with ⟨rfl, hnone, hup⟩ | ⟨rfl, item, hfinds, hup⟩
  · cases h
    rw [hwarn] at hnone
    exact .past _ hnone (hbase.trans hup)
  rw [Finds, hwarn] at hfinds
  have hpinned := pin_spec (hbase.trans hup)
  have hsorted : item.history.Sorted := by
    rcases hfinds with hf | ⟨-, rfl⟩
    · exact hall _ _ hf
    · exact .empty
  simp only [] at h
  rcases servable_spec hpinned.1 with ⟨hunfit, e, herror⟩ | ⟨hstate, hkind, hok⟩
  · rw [herror] at h
    cases h
    exact .refused item _ hfinds hunfit (giveUp_spec q _ hpinned)
  rw [hok] at h
  simp only [] at h
  cases hmissing : q.missing? { item with pins := item.pins + 1 } with
  | some fill =>
    rw [hmissing] at h
    cases h
    exact .fills item fill _ hfinds hstate hkind hmissing hpinned
  | none =>
    rw [hmissing] at h
    have hsorted' : ({ item with pins := item.pins + 1 } : Item).history.Sorted := hsorted
    obtain ⟨hrecords, x, hanswers, hup'⟩ := answer_spec (c₁.pin q.item) now q 0 hsorted'
    simp only [] at h
    generalize (c₁.pin q.item).answer now q 0 { item with pins := item.pins + 1 } = answered
      at h hrecords hup'
    cases h
    rw [hrecords]
    exact .answers item x _ hfinds hstate hkind hmissing hanswers (hpinned.trans hup')

/-- What the reading for a request leads to, if the item is `item` by then. -/
inductive Finished (now : Int) (q : Request) (fill : Fill) (item : Item) (c : Cache) :
    Except StoreFailure Fetched → Option (List Record) → Cache → Prop
  /-- Some of what was read may have been put below the history. -/
  | lost (result : Except StoreFailure Fetched) (h : History) (c' : Cache) (htidy : h.Tidy)
      (hrecords : h.records = item.history.records ∨ ∃ fetched taken, result = .ok fetched ∧
        taken <:+ below item.history fetched.records ∧
        h.records = taken ++ item.history.records)
      (hup : Updates q.item (some { item with state := .removePending, history := h }) c c') :
      Finished now q fill item c result none c'
  | answers (fetched : Fetched) (h : History) (x : Option Item) (c' : Cache)
      (hstate : item.state ≠ .removePending) (hwrites : item.tailWrites = fill.tailWrites)
      (htidy : h.Tidy)
      (hrecords : h.records = below item.history fetched.records ++ item.history.records)
      (hanswers : (fill.extent.mark fetched { item with history := h }).Answers now q x)
      (hup : Updates q.item x c c') :
      Finished now q fill item c (.ok fetched) (some (q.wanted h.records)) c'

theorem inOrder_below_append {h : History} {rs taken : List Record} (hs : h.Sorted)
    (ho : InOrder rs) (htaken : taken <:+ below h rs) : InOrder (taken ++ h.records) := by
  refine List.pairwise_append.2 ⟨(ho.filter _).sublist htaken.sublist, hs.inOrder,
    fun x hx y hy => ?_⟩
  have hx' := (List.mem_filter.1 (htaken.subset hx)).2
  cases holdest : h.records.head? with
  | none =>
    rw [List.head?_eq_none_iff.1 holdest] at hy
    exact absurd hy List.not_mem_nil
  | some oldest =>
    rw [holdest, Option.all_some, decide_eq_true_iff] at hx'
    exact Timestamp.le_trans (Or.inl hx') (hs.inOrder.head_le holdest y hy)

/-- A history stays sorted when read records are put below it. -/
theorem sorted_of_below {h g : History} {rs taken : List Record} (hs : h.Sorted) (ho : InOrder rs)
    (htidy : g.Tidy) (htaken : taken <:+ below h rs) (hrecords : g.records = taken ++ h.records) :
    g.Sorted :=
  ⟨htidy, hrecords ▸ inOrder_below_append hs ho htaken⟩

/-- An extended item is marked by what it covers, and in no other way. -/
theorem mark_eq (extent : Extent) (fetched : Fetched) (item : Item) : ∃ all covered,
    extent.mark fetched item = { item with cachedAll := all, coveredFrom := covered } := by
  cases extent with
  | window start => exact ⟨_, _, rfl⟩
  | count start needed =>
    rw [Extent.mark]
    split
    · split <;> exact ⟨item.cachedAll, _, rfl⟩
    · split
      · exact ⟨item.cachedAll, item.coveredFrom, rfl⟩
      · exact ⟨item.cachedAll, _, rfl⟩

theorem mark_history (extent : Extent) (fetched : Fetched) (item : Item) :
    (extent.mark fetched item).history = item.history := by
  obtain ⟨all, covered, heq⟩ := mark_eq extent fetched item
  rw [heq]

/-- What was read is put below the history and marked, or some of it is when memory runs out. -/
theorem extend_spec {fill : Fill} {fetched : Fetched} {result : Except CacheFailure Item}
    (hid : c.items[q.item]? = some item) (hs : item.history.Sorted) (ho : InOrder fetched.records)
    (h : c.extend now q fill fetched = (result, c')) :
    (∃ e g, result = .error e ∧ g.Tidy ∧
      (g.records = item.history.records ∨ ∃ taken, taken <:+ below item.history fetched.records ∧
        g.records = taken ++ item.history.records) ∧
      Updates q.item (some { item with history := g }) c c') ∨
    ∃ g, result = .ok (fill.extent.mark fetched { item with history := g }) ∧
      item.state ≠ .removePending ∧ item.tailWrites = fill.tailWrites ∧ g.Tidy ∧
      g.records = below item.history fetched.records ++ item.history.records ∧
      Updates q.item (some (fill.extent.mark fetched { item with history := g })) c c' := by
  rw [extend, hid] at h
  simp only [] at h
  by_cases hchanged : item.tailWrites ≠ fill.tailWrites ∨ item.state = .removePending
  · rw [if_pos hchanged] at h
    cases h
    exact Or.inl ⟨_, item.history, rfl, hs.tidy, Or.inl rfl, hid ▸ Updates.of_items rfl⟩
  rw [if_neg hchanged] at h
  rw [not_or, not_not] at hchanged
  obtain ⟨hwrites, hstate⟩ := hchanged
  generalize hprepend : (c.checkOut q.item).prepend now q.item fetched.records item = prepended at h
  obtain ⟨outcome, item₁, c₁⟩ := prepended
  obtain ⟨g, taken, rfl, htidy, hev, hsuffix, hrecords, hresult⟩ :=
    prepend_spec hs.tidy ho hprepend
  rcases hresult with ⟨rfl, rfl⟩ | ⟨n, rfl⟩
  · cases h
    exact Or.inr ⟨g, rfl, hstate, hwrites, htidy, hrecords, hev.checkIn _⟩
  · cases h
    exact Or.inl ⟨_, g, rfl, htidy, Or.inr ⟨taken, hsuffix, hrecords⟩, hev.checkIn _⟩

/-- **A request goes on** after its reading with an answer, or its item is to be removed. -/
theorem finishFill_spec {fill : Fill} {result : Except StoreFailure Fetched}
    {answer : Option (List Record)} (hid : c.items[q.item]? = some item)
    (hs : item.history.Sorted) (ho : ∀ fetched, result = .ok fetched → InOrder fetched.records)
    (h : c.finishFill now q fill result = (answer, c')) :
    Finished now q fill item c result answer c' := by
  cases result with
  | error e =>
    rw [finishFill] at h
    cases h
    have hsame : Updates q.item (some item) c c := hid ▸ Updates.of_items rfl
    exact .lost _ item.history _ hs.tidy (Or.inl rfl) (giveUp_spec q _ hsame)
  | ok fetched =>
    rw [finishFill] at h
    generalize hextend : c.extend now q fill fetched = extended at h
    obtain ⟨result, c₁⟩ := extended
    rcases extend_spec hid hs (ho fetched rfl) hextend with
      ⟨e, g, rfl, htidy, hrecords, hup⟩ | ⟨g, rfl, hstate, hwrites, htidy, hrecords, hup⟩
    · cases h
      refine .lost _ g _ htidy ?_ (giveUp_spec q _ hup)
      rcases hrecords with hsame | ⟨taken, htaken⟩
      · exact Or.inl hsame
      · exact Or.inr ⟨fetched, taken, rfl, htaken⟩
    · have hsorted : (fill.extent.mark fetched { item with history := g }).history.Sorted := by
        rw [mark_history]
        exact sorted_of_below hs (ho fetched rfl) htidy List.suffix_rfl hrecords
      obtain ⟨hanswer, x, hanswers, hup'⟩ := answer_spec c₁ now q fetched.records.length hsorted
      simp only [] at h
      generalize c₁.answer now q fetched.records.length
        (fill.extent.mark fetched { item with history := g }) = answered at h hanswer hup'
      cases h
      rw [hanswer, mark_history]
      exact .answers fetched g x _ hstate hwrites htidy hrecords hanswers (hup.trans hup')

/-- A request that went past the cache leaves its item, if it was held. -/
theorem finishBypass_spec (now : Int) (q : Request) (held : Bool) (result : Except StoreFailure (List Record))
    (hs : ∀ item, c.items[q.item]? = some item → item.history.Sorted) :
    (c.finishBypass now q held result).items = c.items ∧
        (held = false ∨ c.items[q.item]? = none) ∨
      held = true ∧ ∃ item x, c.items[q.item]? = some item ∧ item.Leaves now x ∧
        Updates q.item x c (c.finishBypass now q held result) := by
  obtain ⟨c₁, hitems, hfinish⟩ : ∃ c₁ : Cache, c₁.items = c.items ∧
      c.finishBypass now q held result = if held then c₁.unpin now q.item else c₁ := by
    cases result with
    | ok records => exact ⟨_, items_account_none c now 0 records.length, rfl⟩
    | error e => exact ⟨c, rfl, rfl⟩
  rw [hfinish]
  cases held with
  | false => exact Or.inl ⟨hitems, Or.inl rfl⟩
  | true =>
    cases hid : c.items[q.item]? with
    | none =>
      left
      refine ⟨?_, Or.inr rfl⟩
      rw [if_pos rfl, unpin, hitems, hid]
      exact hitems
    | some item =>
      right
      obtain ⟨x, hx, hget⟩ := unpin_spec now (hitems ▸ hid : c₁.items[q.item]? = some item) (hs item hid)
      refine ⟨rfl, item, x, rfl, hx, Updates.of_getElem? fun j => ?_⟩
      rw [if_pos rfl, hget, hitems]

end Cache

end HistoryCache
