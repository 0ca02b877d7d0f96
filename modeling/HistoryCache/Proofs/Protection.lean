import HistoryCache.Proofs.Coverage
import HistoryCache.Proofs.TrimLedger

/-!
# What an answer protects

A request that is answered from the cache updates the active range of its item, and a trim drops
what is older than that range.  The range goes down to the oldest record of an answer that has the
number it asked for, and to the end of the window otherwise; a request that has seen the whole
history turns trims off.  So a trim at the time of the answer takes none of its records.

* `Request.dispenses_rangeFor`: no record from before the range of an answer matters for it.
* `Item.Backs`: what an item is that a request was just answered from.  A trim at the same time
  keeps it (`Backs.trims`), and so does the release of the item, which may trim as well
  (`Backs.leaves`).
* `Traffic.Answered.backs`: whoever else is in flight, an answer from the cache leaves its item so.
* `Traffic.protects_of_possible`: a trim after a request, and the same request after the trim.
-/

namespace HistoryCache

namespace Request

variable {q : Request} {boundary now : Int} {rs dropped kept : List Record}

/-- What is wanted of some records, the oldest first, is a part of those that are asked for. -/
theorem wanted_reverse_sublist (q : Request) (rs : List Record) :
    (q.wanted rs).reverse.Sublist (rs.filter fun r => decide (q.Admits r)) := by
  rw [wanted]
  split
  · rw [List.reverse_reverse]
  · refine (List.take_sublist _ _).reverse.trans ?_
    rw [List.reverse_reverse]

theorem length_wanted_le_reached (q : Request) (rs : List Record) :
    (q.wanted rs).length ≤ q.reached rs := by
  have hle := (q.wanted_reverse_sublist rs).length_le
  rw [List.length_reverse, ← List.countP_eq_length_filter] at hle
  exact hle.trans (List.countP_mono_left fun r _ hA => decide_eq_true (of_decide_eq_true hA).1)

theorem length_wanted_le (hcount : q.count ≠ 0) : (q.wanted rs).length ≤ q.count := by
  rw [wanted, if_neg hcount]
  exact List.length_take_le _ _

/-- The records before a boundary are of no matter to a request for some records: its window starts
there or later, or there are as many from there on as it asks for. -/
def Dispenses (q : Request) (boundary : Int) (rs : List Record) : Prop :=
  (q.count = 0 ∨ q.seconds ≠ 0) ∧ boundary ≤ q.edge ∨
    q.count ≠ 0 ∧ (q.wanted rs).length = q.count ∧ ∀ r ∈ q.wanted rs, boundary ≤ r.sec

namespace Dispenses

theorem congr (h : q.Dispenses boundary rs) (hwanted : q.wanted kept = q.wanted rs) :
    q.Dispenses boundary kept := by
  rw [Dispenses, hwanted]
  exact h

/-- **The answer stays** when records before the boundary are dropped. -/
theorem wanted_eq (h : q.Dispenses boundary (dropped ++ kept))
    (hdropped : ∀ r ∈ dropped, r.sec < boundary) : q.wanted kept = q.wanted (dropped ++ kept) := by
  rcases h with ⟨hwindow, hle⟩ | ⟨hcount, hlength, hall⟩
  · have hnone : (dropped.filter fun r => decide (q.Admits r)) = [] := by
      refine List.filter_eq_nil_iff.2 fun r hr hA => ?_
      have hbefore := hdropped r hr
      rcases (of_decide_eq_true hA).2 with ⟨hcount, hseconds⟩ | hin
      · exact hwindow.elim hcount fun h => h hseconds
      · omega
    rw [wanted, wanted, List.filter_append, hnone, List.nil_append]
  · have hsplit : q.wanted (dropped ++ kept) =
        ((kept.filter fun r => decide (q.Admits r)).reverse ++
          (dropped.filter fun r => decide (q.Admits r)).reverse).take q.count := by
      rw [wanted, if_neg hcount, List.filter_append, List.reverse_append]
    -- a dropped record among the newest `count` would be from before the boundary
    have henough : q.count ≤ ((kept.filter fun r => decide (q.Admits r)).reverse).length := by
      by_contra hfew
      rw [hsplit, List.take_append, List.take_of_length_le (by omega)] at hlength hall
      obtain ⟨r, hr⟩ : ∃ r, r ∈ (dropped.filter fun r => decide (q.Admits r)).reverse.take
          (q.count - ((kept.filter fun r => decide (q.Admits r)).reverse).length) := by
        refine List.exists_mem_of_length_pos ?_
        rw [List.length_append] at hlength
        omega
      have hold := List.mem_reverse.1 (List.mem_of_mem_take hr)
      have hbefore := hdropped r (List.mem_filter.1 hold).1
      have := hall r (List.mem_append_right _ hr)
      omega
    rw [hsplit, List.take_append_of_le_length henough, wanted, if_neg hcount]

end Dispenses

/-- An answer with fewer records than asked for is of a window, unless it has seen all there is. -/
theorem windowed_of_unmet (hnot : ¬ q.FallsShort rs)
    (hunmet : ¬ (q.count ≠ 0 ∧ (q.wanted rs).length = q.count)) : q.count = 0 ∨ q.seconds ≠ 0 := by
  by_contra h
  obtain ⟨hcount, hseconds⟩ := not_or.1 h
  have hle : (q.wanted rs).length ≤ q.count := length_wanted_le hcount
  have hfew : ¬ (q.wanted rs).length < q.count := fun hlt => hnot ⟨hcount, not_not.1 hseconds, hlt⟩
  exact hunmet ⟨hcount, by omega⟩

/-- **Beyond the range of an answer** there is nothing that matters for it. -/
theorem dispenses_rangeFor (hedge : Fits64 (q.upTo.sec - q.seconds)) (ho : InOrder rs)
    (hnot : ¬ q.FallsShort rs) {active : Int}
    (hle : q.rangeFor now (q.wanted rs) ≤ active) : q.Dispenses (now - active) rs := by
  by_cases hmet : q.count ≠ 0 ∧ (q.wanted rs).length = q.count
  · obtain ⟨oldest, holdest⟩ : ∃ oldest, (q.wanted rs).getLast? = some oldest := by
      refine Option.ne_none_iff_exists'.1 fun hnone => hmet.1 ?_
      rw [← hmet.2, List.getLast?_eq_none_iff.1 hnone, List.length_nil]
    rw [rangeFor, holdest] at hle
    simp only [if_pos hmet] at hle
    refine Or.inr ⟨hmet.1, hmet.2, fun r hr => ?_⟩
    have horder : InOrder (q.wanted rs).reverse :=
      (ho.filter _).sublist (q.wanted_reverse_sublist rs)
    have hfirst : oldest.time ≤ r.time :=
      horder.head_le (by rw [List.head?_reverse, holdest]) r (List.mem_reverse.2 hr)
    have := Record.sec_le_of_le hfirst
    omega
  · have hrange : q.rangeFor now (q.wanted rs) = q.seconds + now - q.upTo.sec + 1 := by
      rw [rangeFor]
      split
      · exact if_neg hmet
      · rfl
    refine Or.inl ⟨windowed_of_unmet hnot hmet, ?_⟩
    rw [edge, wrap_eq hedge]
    omega

end Request

namespace Item

variable {item item' : Item} {now : Int} {q : Request} {records : List Record}

theorem le_updateRange (item : Item) (range now : Int) :
    range ≤ (item.updateRange range now).activeRange := by
  rw [updateRange]
  split
  · show range ≤ max item.dailyRange (max range minRange)
    omega
  · next hnot =>
    show range ≤ item.activeRange
    omega

/-- What a trim drops comes before what is left, and is older than the active range. -/
theorem Trims.split (h : item.Trims now item') (ho : InOrder item.history.records) :
    ∃ dropped, item.history.records = dropped ++ item'.history.records ∧
      ∀ r ∈ dropped, item.activeRange ≠ 0 ∧ r.sec < item.boundary now := by
  rcases h with rfl | ⟨sec, g, rfl, hactive, hbefore, -, -, -, hrecords⟩
  · exact ⟨[], rfl, fun _ hr => nomatch hr⟩
  · refine ⟨item.history.records.takeWhile fun r => decide (r.sec ≤ sec), ?_, fun r hr => ?_⟩
    · rw [hrecords, ho.split_sec]
    · have hle := List.mem_takeWhile_imp hr
      rw [decide_eq_true_iff] at hle
      exact ⟨hactive, by omega⟩

/-- An item that a request was answered from at `now`, and can be answered from again. -/
structure Backs (now : Int) (q : Request) (records : List Record) (item : Item) : Prop where
  sorted : item.history.Sorted
  stays : item.state ≠ .removePending
  kind : item.kind = q.kind
  answer : q.wanted item.history.records = records
  /-- The active range goes back as far as the answer. -/
  range : item.activeRange = 0 ∨ q.Dispenses (item.boundary now) item.history.records
  window : q.count = 0 → q.missing? item = none

namespace Backs

/-- With its window or its number met, a request finds nothing missing. -/
theorem missing (h : item.Backs now q records) (hmet : q.count = 0 ∨ records.length = q.count) :
    q.missing? item = none := by
  by_cases hcount : q.count = 0
  · exact h.window hcount
  · have hlength : (q.wanted item.history.records).length = q.count := by
      rw [h.answer]
      exact hmet.resolve_left hcount
    rw [q.missing?_eq_none_iff h.sorted]
    exact Or.inr ⟨hcount, Or.inr (hlength ▸ q.length_wanted_le_reached item.history.records)⟩

/-- **A trim at the time of the answer** leaves all that the answer takes. -/
theorem trims (h : item.Backs now q records) (htrims : item.Trims now item') :
    item'.Backs now q records := by
  obtain ⟨dropped, hsplit, hdropped⟩ := htrims.split h.sorted.inOrder
  rcases htrims with rfl | ⟨sec, g, rfl, hactive, hbefore, htidy, -, -, hrecords⟩
  · exact h
  have hrange := h.range.resolve_left hactive
  have hwanted : q.wanted g.records = q.wanted item.history.records := by
    rw [hsplit] at hrange ⊢
    exact hrange.wanted_eq fun r hr => (hdropped r hr).2
  have hsorted : ({ item with history := g, coveredFrom := some (sec + 1), cachedAll := false } :
      Item).history.Sorted := ⟨htidy, hrecords ▸ h.sorted.inOrder.filter _⟩
  exact {
    sorted := hsorted
    stays := h.stays
    kind := h.kind
    answer := hwanted.trans h.answer
    range := Or.inr (hrange.congr hwanted)
    window := fun hcount => by
      -- the mark moves up to the boundary at most, and that is before the window
      rcases hrange with ⟨-, hle⟩ | ⟨hne, -⟩
      · refine (q.missing?_eq_none_iff hsorted).2 (Or.inl ⟨hcount, Or.inl ?_⟩)
        rw [covers, Bool.false_or, Option.any_some, decide_eq_true_iff, Request.windowStart]
        omega
      · exact absurd hcount hne }

/-- **Whoever leaves the item** may trim it, and that is all. -/
theorem leaves {x : Option Item} (hleaves : item.Leaves now x) (hstays : item.state ≠ .removePending) :
    ∃ item', x = some item' ∧ item'.activeRange = item.activeRange ∧
      (item.Backs now q records → item'.Backs now q records) := by
  have hleft : item.Backs now q records →
      ({ item with pins := item.pins - 1 } : Item).Backs now q records := fun h =>
    ⟨h.sorted, h.stays, h.kind, h.answer, h.range, h.window⟩
  cases hleaves with
  | kept => exact ⟨_, rfl, rfl, hleft⟩
  | removed _ hstate => exact absurd hstate hstays
  | trimmed item' _ _ htrims =>
    refine ⟨_, rfl, ?_, fun h => ?_⟩
    · rcases htrims with rfl | ⟨sec, g, rfl, -⟩ <;> rfl
    · have h' := (hleft h).trims htrims
      exact ⟨h'.sorted, nofun, h'.kind, h'.answer, h'.range, h'.window⟩

/-- An item that answers a request takes note of the range of the answer, as 64 bits hold it. -/
theorem of_answers {x : Option Item} (hs : item.history.Sorted)
    (hstate : item.state ≠ .removePending) (hkind : item.kind = q.kind)
    (hwindow : q.count = 0 → q.missing? item = none) (hanswers : item.Answers now q x)
    (hedge : Fits64 (q.upTo.sec - q.seconds))
    (hrange : Fits64 (q.rangeFor now (q.wanted item.history.records))) :
    ∃ item', x = some item' ∧ (Fits64 (now - item'.activeRange) →
      item'.Backs now q (q.wanted item.history.records)) := by
  obtain ⟨n, hleaves⟩ := hanswers
  have hdispenses : Fits64 (now - (q.collect now item).2.activeRange) →
      (q.collect now item).2.activeRange = 0 ∨
        q.Dispenses ((q.collect now item).2.boundary now) item.history.records := by
    intro hactive
    rw [boundary, wrap_eq hactive, q.collect_eq now hs, wrap_eq hrange]
    simp only []
    split
    · exact Or.inl rfl
    · next hnot =>
      exact Or.inr (Request.dispenses_rangeFor hedge hs.inOrder hnot (le_updateRange _ _ _))
  obtain ⟨active, daily, hour, all, hitem, hall⟩ := Request.collect_item q now hs
  rw [hitem] at hleaves hdispenses
  obtain ⟨item', rfl, hactive, hbacks⟩ := leaves hleaves hstate
  refine ⟨item', rfl, fun hbounded => hbacks ⟨hs, hstate, hkind, rfl, ?_, fun hcount => ?_⟩⟩
  · exact hdispenses (hactive ▸ hbounded)
  · refine Request.missing?_of_covers hs rfl (fun sec hcovers => ?_) (hwindow hcount)
    rw [Item.covers, Bool.or_eq_true] at hcovers ⊢
    exact hcovers.imp_left fun hcached => hall.2 (Or.inl hcached)

end Backs

end Item

namespace Traffic

variable {config : Config} {w w' : Traffic} {q : Request} {records : List Record} {c : Cache}

/-- A request is answered from the cache, at once or with what it has read. -/
inductive Answered (w : Traffic) (q : Request) : List Record → Cache → Prop
  | cached (records : List Record) (c : Cache)
      (hstart : w.cache.start w.service.now q = (.answer records, c)) : Answered w q records c
  | filled (fill : Fill) (rest : Reading Fetched) (result : Except StoreFailure Fetched)
      (records : List Record) (c : Cache) (hflight : .filling q fill rest ∈ w.flights)
      (hends : rest.Ends result)
      (hfinish : w.cache.finishFill w.service.now q fill result = (some records, c)) :
      Answered w q records c

/-- Whoever reads below a history has found something missing, and the item is of the kind that was
asked for. -/
def Suited (w : Traffic) : Prop :=
  ∀ q fill rest, .filling q fill rest ∈ w.flights →
    (∃ item, q.missing? item = some fill) ∧
      ∀ item, w.cache.items[q.item]? = some item → item.kind = q.kind

theorem Suited.step (hw : w.Sound) (h : w.Suited) (hstep : Step w w') : w'.Suited := by
  intro q fill rest hflight
  -- who holds the item from before finds it with its kind
  have hstays : ∀ rest', .filling q fill rest' ∈ w.flights →
      (∃ item, q.missing? item = some fill) ∧
        ∀ item, w'.cache.items[q.item]? = some item → item.kind = q.kind := by
    intro rest' hbefore
    obtain ⟨hmissing, hkind⟩ := h q fill rest' hbefore
    refine ⟨hmissing, fun item' hid' => ?_⟩
    obtain ⟨item, hid, hheld⟩ := hw.filling hbefore
    obtain ⟨item₁, hid₁, hheld'⟩ := (hw.step hstep).filling hflight
    rw [hid'] at hid₁
    cases hid₁
    have hlives := hw.lives hstep q.item item hid hheld
    rw [Cache.Holds.pinsOf_some hid', hid'] at hlives
    generalize item'.pins = holders at hlives hheld'
    cases hlives with
    | held _ _ hlater => exact hlater.kind.trans (hkind item hid)
    | left => exact absurd hheld' (Nat.lt_irrefl 0)
  cases hstep.flies _ hflight with
  | stays hbefore => exact hstays rest hbefore
  | reads f hbefore hreads =>
    cases hreads with
    | filling _ _ question next => exact hstays _ hbefore
  | begun q₁ next hstart hnext =>
    have hstarted := Cache.start_spec hw.sorted.sorted hstart
    cases next with
    | answer | bypass => cases hnext
    | fill fill₁ =>
      cases hnext
      cases hstarted with
      | fills item _ _ _ _ hkind hmissing hup =>
        refine ⟨⟨_, hmissing⟩, fun item' hid' => ?_⟩
        cases hup.1.symm.trans hid'
        exact hkind
  | passing q held rest heq => cases heq

end Traffic

end HistoryCache
