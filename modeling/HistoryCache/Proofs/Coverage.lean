import HistoryCache.Proofs.Bystanders
import HistoryCache.Proofs.Repeats

/-!
# What an overtaken request does to the coverage of its item

A request that waits for the store has looked at its item before, and notes what it has read when it is
done.  Others may have extended the item meanwhile.  Their records stay, and what was read is put below
them; but the note is made as if nobody had been there.  One of a window is put in the place of whatever
the item vouched for, one of a count in the place of the second that it was covered from, so that the
item may vouch for less than before.

* `Extent.mark_eq_noted`: what a note changes.
* `Extent.Respects`, `Item.covers_mark_kept`: the notes after which nothing is lost.
* `Traffic.covered_of_possible`: the coverage of an item when a request for it is done, whatever others
  did before.
-/

namespace HistoryCache

namespace Extent

/-- Whether an item of which all is cached stays so with the note of a reading. -/
def keepsAll : Extent → Bool
  | window _ => false
  | count .. => true

/-- The second from which an item is covered by the note of a reading, if it names one. -/
def noted (fetched : Fetched) : Extent → Option Int
  | window start => some start
  | count start needed =>
    match fetched.records.head? with
    | some oldest =>
      if needed ≤ fetched.counted ∨ start = 0 then some oldest.sec else some start
    | none => if start = 0 then none else some start

theorem mark_eq_noted (extent : Extent) (fetched : Fetched) (item : Item) :
    extent.mark fetched item =
      { item with
        cachedAll := item.cachedAll && extent.keepsAll
        coveredFrom := (extent.noted fetched).or item.coveredFrom } := by
  cases extent with
  | window start =>
    show _ = ({ item with cachedAll := item.cachedAll && false, coveredFrom := some start } : Item)
    rw [Bool.and_false]
    rfl
  | count start needed =>
    rw [keepsAll, Bool.and_true, mark, noted]
    cases fetched.records.head? with
    | some oldest =>
      simp only []
      split <;> rfl
    | none =>
      simp only []
      split <;> rfl

/-- The note of a reading takes nothing from what an item vouches for. -/
def Respects (fetched : Fetched) (item : Item) (extent : Extent) : Prop :=
  if item.cachedAll then extent.keepsAll = true
  else ∀ first sec, extent.noted fetched = some first → item.coveredFrom = some sec → first ≤ sec

end Extent

namespace Item

variable {item item' : Item}

theorem covers_iff (item : Item) (start : Int) : item.covers start = true ↔
    item.cachedAll = true ∨ ∃ sec, item.coveredFrom = some sec ∧ sec ≤ start := by
  rw [covers, Bool.or_eq_true]
  refine or_congr Iff.rfl ?_
  cases item.coveredFrom with
  | none => simp
  | some sec => simp

theorem covers_mark (extent : Extent) (fetched : Fetched) (item : Item) (start : Int) :
    (extent.mark fetched item).covers start = true ↔
      item.cachedAll = true ∧ extent.keepsAll = true ∨
        ∃ sec, (extent.noted fetched).or item.coveredFrom = some sec ∧ sec ≤ start := by
  rw [covers_iff, extent.mark_eq_noted, Bool.and_eq_true]

/-- **What is lost**: all that an item vouched for is kept if the note respects it, and otherwise not. -/
theorem covers_mark_kept (extent : Extent) (fetched : Fetched) (item : Item) :
    (∀ start, item.covers start = true → (extent.mark fetched item).covers start = true) ↔
      extent.Respects fetched item := by
  simp only [covers_mark]
  simp only [covers_iff]
  rw [Extent.Respects]
  constructor
  · intro hkept
    split
    · next hall =>
      -- a second before the noted one was covered
      by_contra hgone
      have hnoted : ∀ start, ∃ sec, (extent.noted fetched).or item.coveredFrom = some sec ∧
          sec ≤ start := fun start => (hkept start (Or.inl hall)).resolve_left fun h => hgone h.2
      obtain ⟨sec, hsec, -⟩ := hnoted 0
      obtain ⟨sec', hsec', hle⟩ := hnoted (sec - 1)
      rw [hsec] at hsec'
      cases hsec'
      omega
    · next hall =>
      intro first sec hfirst hsec
      rcases hkept sec (Or.inr ⟨sec, hsec, Int.le_refl sec⟩) with ⟨hall', -⟩ | ⟨sec', hsec', hle⟩
      · exact absurd hall' hall
      · rw [hfirst, Option.some_or] at hsec'
        cases hsec'
        exact hle
  · intro hrespects start hcovered
    split at hrespects
    · next hall => exact Or.inl ⟨hall, hrespects⟩
    · next hall =>
      obtain ⟨sec, hsec, hle⟩ := hcovered.resolve_left hall
      right
      cases hnoted : extent.noted fetched with
      | none => exact ⟨sec, by rw [Option.none_or, hsec], hle⟩
      | some first =>
        have := hrespects first sec hnoted hsec
        exact ⟨first, by rw [Option.some_or], by omega⟩

/-- An answer that has seen all there is makes up for what a note has lost. -/
theorem Answered.covers_iff {q : Request} (h : item.Answered q item') (start : Int) :
    item'.covers start = true ↔ q.FallsShort item'.history.records ∨ item.covers start = true := by
  rw [Item.covers_iff, Item.covers_iff, h.all, h.covered, h.history]
  tauto

end Item

/-- **The coverage of an item** when a request for it is done that was in flight.  What others did
before is in the item by then.  Its records are kept, and it vouches for what the note of the request
says, or for everything if the request has seen all there is. -/
theorem Traffic.covered_of_possible {config : Config} {s : Service} {before after : List Flight}
    {q : Request} {fill : Fill} {rest : Reading Fetched} {fetched : Fetched} {item : Item}
    {records : List Record} {c : Cache}
    (hs : Possible config ⟨s, before ++ .filling q fill rest :: after⟩)
    (hends : rest.Ends (.ok fetched)) (hid : s.cache.items[q.item]? = some item)
    (hactive : item.state = .active)
    (hfinish : s.cache.finishFill s.now q fill (.ok fetched) = (some records, c)) :
    ∃ item', c.items[q.item]? = some item' ∧
      item.history.records <:+ item'.history.records ∧
      (∀ start, item'.covers start = true ↔ q.FallsShort item'.history.records ∨
        item.cachedAll = true ∧ fill.extent.keepsAll = true ∨
        ∃ sec, (fill.extent.noted fetched).or item.coveredFrom = some sec ∧ sec ≤ start) ∧
      -- nothing that others left covered is lost exactly if the note respects it
      ((∀ start, item.covers start = true → item'.covers start = true) ↔
        q.FallsShort item'.history.records ∨ fill.extent.Respects fetched item) := by
  have hsound := hs.sound
  obtain ⟨item₀, hid₀, -, hfinished, ho⟩ :=
    hsound.finished (List.mem_append_right _ List.mem_cons_self) hends hfinish
  rw [show s.cache.items[q.item]? = some item₀ from hid₀] at hid
  cases hid
  have hsorted := hsound.sorted.sorted _ item hid₀
  clear hfinish
  cases hfinished with
  | answers _ g x _ _ _ htidy hrecords hanswers hup =>
    generalize hmarked : fill.extent.mark fetched { item with history := g } = marked at hanswers
    have hhistory : marked.history = g := by rw [← hmarked, Cache.mark_history]
    have hstate : marked.state = .active := by rw [← hmarked, Extent.mark_eq_noted]; exact hactive
    have hs' : marked.history.Sorted := by
      rw [hhistory]
      exact Cache.sorted_of_below hsorted (ho fetched rfl) htidy List.suffix_rfl hrecords
    obtain ⟨item', rfl, hanswered⟩ := hanswers.of_active hs' hstate
    have hkept : item'.history.records = g.records := by rw [hanswered.history, hhistory]
    have hcovers : ∀ start, item'.covers start = true ↔ q.FallsShort item'.history.records ∨
        marked.covers start = true := hanswered.covers_iff
    refine ⟨item', hup.1, ⟨_, by rw [hkept, hrecords]⟩, fun start => ?_, ?_⟩
    · rw [hcovers, ← hmarked, Item.covers_mark]
    · by_cases hshort : q.FallsShort item'.history.records
      · refine ⟨fun _ => Or.inl hshort, fun _ start _ => ?_⟩
        exact (hcovers start).2 (Or.inl hshort)
      · simp only [hcovers, hshort, false_or, ← hmarked]
        exact Item.covers_mark_kept fill.extent fetched { item with history := g }

/-- A request of item 7 that goes further back than `lastMinuteOf7`. -/
def furtherBack : Request := ⟨7, .uint, 200, 0, ⟨1000, 0⟩⟩

/-- What is missing for it in an empty cache, and what is read. -/
def furtherFill : Fill := ⟨.window 800, 0, furtherBack.fetchWindow Timestamp.horizon⟩

def furtherFetched : Fetched := ⟨[⟨⟨900, 0⟩, .uint 1⟩, ⟨⟨990, 0⟩, .uint 2⟩], 0⟩

/-- A service in which `lastMinuteOf7` has overtaken `furtherBack`. -/
def overtaken : Service :=
  (Service.get Service.plain true lastMinuteOf7
    ({ turnedOn with cache := (turnedOn.cache.start 1000 furtherBack).2 }, ())).2.1

theorem Traffic.possible_overtaken :
    Possible {} ⟨overtaken, [.filling furtherBack furtherFill (.done furtherFetched)]⟩ := by
  have h₀ : Possible {} ⟨newService, []⟩ := .new 1000 newService new_newService
  have h₁ : Possible {} ⟨turnedOn, []⟩ := (closed_possible {}).elsewhere h₀ rfl rfl rfl
  have h₂ := h₁.step _ _ (.begins turnedOn [] furtherBack (.fill furtherFill) _ rfl)
  have hquiet : (Service.plain : Backend Unit).Quiet := fun _ _ _ => rfl
  obtain ⟨h₃, -⟩ := (closed_possible {}).kept.get hquiet.carries true lastMinuteOf7 h₂ (x := ()) trivial
  have hreads : Flight.Reads (.filling furtherBack furtherFill furtherFill.reading)
      (.filling furtherBack furtherFill
        (.done ⟨Record.oldestFirst furtherFetched.records, 0⟩)) := .filling _ _ _ _ _
  have hsorted : Record.oldestFirst furtherFetched.records = furtherFetched.records := by cbv
  rw [hsorted] at hreads
  exact h₃.step _ _ (.reads overtaken [] [] _ _ hreads)

/-- What is noted for `furtherBack` takes nothing from what `lastMinuteOf7` left covered. -/
theorem Traffic.covered_overtaken : ∃ item item' : Item, overtaken.cache.items[7]? = some item ∧
    item.covers 940 = true ∧ item.covers 800 = false ∧
    (overtaken.cache.finishFill overtaken.now furtherBack furtherFill (.ok furtherFetched)).2.items[7]? =
      some item' ∧ item'.covers 940 = true ∧ item'.covers 800 = true := by
  have hbefore : (overtaken.cache.items[7]?).map (fun item =>
      (item.state, item.covers 940, item.covers 800, item.cachedAll, item.coveredFrom)) =
      some (.active, true, false, false, some 940) := by cbv
  have hanswers : (overtaken.cache.finishFill overtaken.now furtherBack furtherFill
      (.ok furtherFetched)).1.isSome := by cbv
  obtain ⟨item, hid, hitem⟩ := Option.map_eq_some_iff.1 hbefore
  simp only [Prod.mk.injEq] at hitem
  obtain ⟨hactive, hfrom, hnot, hall, hcovered⟩ := hitem
  generalize hfinish : overtaken.cache.finishFill overtaken.now furtherBack furtherFill
    (.ok furtherFetched) = finished at hanswers ⊢
  obtain ⟨answer, c⟩ := finished
  obtain ⟨records, rfl⟩ := Option.isSome_iff_exists.1 hanswers
  have hw : Possible {} ⟨overtaken, [] ++ .filling furtherBack furtherFill (.done furtherFetched) :: []⟩ :=
    possible_overtaken
  obtain ⟨item', hid', -, hcovers, hkept⟩ :=
    covered_of_possible hw (.done furtherFetched) hid hactive hfinish
  have hrespects : furtherFill.extent.Respects furtherFetched item := by
    rw [Extent.Respects, hall, if_neg Bool.false_ne_true]
    intro first sec hfirst hsec
    rw [hcovered] at hsec
    cases hfirst
    cases hsec
    decide
  refine ⟨item, item', hid, hfrom, hnot, hid', hkept.2 (Or.inr hrespects) 940 hfrom, ?_⟩
  exact (hcovers 800).2 (Or.inr (Or.inr ⟨800, rfl, Int.le_refl 800⟩))

/-- Lets a request run to completion before the store answers, and takes down what becomes of its item. -/
def overtakenBy (q : Request) : Backend (Option Item) := fun question (s, _) =>
  let (_, t, _) := Service.get Service.plain true q (s, ())
  let (answer, u, _) := Service.plain question (t, ())
  (answer, u, t.cache.items[q.item]?)

/-- **Coverage may be lost**: `furtherBack` overtakes `lastMinuteOf7` and leaves item 7 covered from
second 800 on.  When `lastMinuteOf7` is done, the item has the same records and is covered from second
940 on, so that `furtherBack`, made again, reads what is cached. -/
theorem Traffic.not_covered_lastMinute : ∃ (t : Service) (other item : Item),
    Service.get (overtakenBy furtherBack) true lastMinuteOf7 (turnedOn, none) =
      (.ok [⟨⟨990, 0⟩, .uint 2⟩], t, some other) ∧
    other.covers 800 = true ∧ t.cache.items[7]? = some item ∧ item.covers 800 = false ∧
    item.history.records = other.history.records ∧
    (Service.get Service.plain true furtherBack (t, ())).2.1.store.reads ≠ t.store.reads := by
  have hfirst : (Service.get (overtakenBy furtherBack) true lastMinuteOf7 (turnedOn, none)).1 =
      .ok [⟨⟨990, 0⟩, .uint 2⟩] := by cbv
  have hother : (Service.get (overtakenBy furtherBack) true lastMinuteOf7
      (turnedOn, none)).2.2.map (fun other => (other.covers 800, other.history.records)) =
      some (true, [⟨⟨900, 0⟩, .uint 1⟩, ⟨⟨990, 0⟩, .uint 2⟩]) := by cbv
  have hitem : ((Service.get (overtakenBy furtherBack) true lastMinuteOf7
      (turnedOn, none)).2.1.cache.items[7]?).map (fun item => (item.covers 800, item.history.records)) =
      some (false, [⟨⟨900, 0⟩, .uint 1⟩, ⟨⟨990, 0⟩, .uint 2⟩]) := by cbv
  have hreads : (Service.get (overtakenBy furtherBack) true lastMinuteOf7
      (turnedOn, none)).2.1.store.reads.length = 2 := by cbv
  have hagain : (Service.get Service.plain true furtherBack
      ((Service.get (overtakenBy furtherBack) true lastMinuteOf7 (turnedOn, none)).2.1,
        ())).2.1.store.reads.length = 3 := by cbv
  generalize Service.get (overtakenBy furtherBack) true lastMinuteOf7 (turnedOn, none) = got
    at hfirst hother hitem hreads hagain ⊢
  obtain ⟨result, t, seen⟩ := got
  obtain ⟨other, hseen, hbefore⟩ := Option.map_eq_some_iff.1 hother
  obtain ⟨item, hid, hafter⟩ := Option.map_eq_some_iff.1 hitem
  cases hseen
  obtain ⟨hbefore, hrecords⟩ := Prod.mk.inj hbefore
  obtain ⟨hafter, hrecords'⟩ := Prod.mk.inj hafter
  refine ⟨t, other, item, by rw [← hfirst], hbefore, hid, hafter, by rw [hrecords, hrecords'], ?_⟩
  intro hsame
  simp only [] at hreads hagain
  rw [hsame, hreads] at hagain
  cases hagain

end HistoryCache
