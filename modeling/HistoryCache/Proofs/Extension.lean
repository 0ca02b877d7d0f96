import HistoryCache.Proofs.Coherence

/-!
# Histories that were extended

What a request needs of a history to be answered from it (`Request.Enough`), and what it has once
the missing part was read and put below it, whatever others wrote meanwhile (`Extension`).

* `Item.Coherent.enough`: a coherent item of which nothing is missing is enough.
* `Extension.enough`, `Extension.marked`: what was read is enough, together with what was cached,
  and the item vouches truly for what it is marked with.
-/

namespace HistoryCache

/-! ## Answers -/

namespace Request

variable {q : Request} {stored rs : List Record}

/-- The second after which a request needs the whole history, if it has not found enough. -/
def start (q : Request) : Int := if q.count = 0 then q.windowStart else q.countStart

/-- A request asks for no record of its first second or of an earlier one. -/
theorem start_lt {r : Record} (hpos : 1 ≤ r.sec) (hA : q.Admits r) : q.start < r.sec := by
  have hwindow := hA.2
  rw [start, countStart, windowStart]
  split
  · omega
  · split <;> omega

theorem start_of_missing {item : Item} {fill : Fill} (h : q.missing? item = some fill) :
    fill.extent.start = q.start := by
  rcases missing?_eq_some h with ⟨hcount, -, -, rfl⟩ | ⟨hcount, -, -, rfl⟩
  · exact (if_pos hcount).symm
  · exact (if_neg hcount).symm

/-- Records that answer a request as all stored records do.  If they make it conclude that there are
no others, there are none. -/
structure Enough (q : Request) (stored rs : List Record) : Prop where
  serves : q.Serves (· ∈ stored) rs
  whole : q.FallsShort rs → ∀ r ∈ stored, r ∈ rs

theorem Enough.of_complete (hreg : ∀ r ∈ stored, r.time.Regular)
    (h : ∀ r ∈ stored, q.start < r.sec → r ∈ rs) : q.Enough stored rs where
  serves := Or.inl fun r hr hA => h r hr (start_lt (hreg r hr).pos hA)
  whole hshort r hr := by
    refine h r hr ?_
    rw [start, if_neg hshort.1, countStart, if_pos hshort.2.1]
    exact (hreg r hr).pos

/-- A counted request with no window falls short if there are too few records before its time. -/
theorem fallsShort_iff (hcount : q.count ≠ 0) (hseconds : q.seconds = 0) (rs : List Record) :
    q.FallsShort rs ↔ q.reached rs < q.count := by
  have hsame : rs.countP (fun r => decide (q.Admits r)) = q.reached rs := by
    refine List.countP_congr fun r _ => ?_
    simp [Admits, hcount, hseconds]
  rw [FallsShort, wanted, if_neg hcount, List.length_take, List.length_reverse,
    ← List.countP_eq_length_filter, hsame]
  omega

theorem Enough.of_count (hcount : q.count ≠ 0) (hin : InOrder rs) (hreached : q.count ≤ q.reached rs)
    (hfloor : ∀ x ∈ rs, ∀ r ∈ stored, x.sec ≤ r.sec → r ∈ rs) : q.Enough stored rs where
  serves := by
    cases rs with
    | nil => exact absurd (Nat.le_zero.1 hreached) hcount
    | cons oldest rs =>
      refine Or.inr ⟨hcount, hreached, oldest.sec, fun r hr => ?_, fun r hr hle _ =>
        hfloor oldest List.mem_cons_self r hr hle⟩
      exact Record.sec_le_of_le (hin.head_le rfl r hr)
  whole hshort := by
    exact absurd hreached (Nat.not_le.2 ((fallsShort_iff hcount hshort.2.1 rs).1 hshort))

end Request

namespace Item

variable {stored : List Record} {item : Item} {q : Request}

theorem Coherent.covers (h : item.Coherent stored) {sec : Int} (hcovers : item.covers sec = true) :
    ∀ r ∈ stored, sec ≤ r.sec → r ∈ item.history.records := by
  intro r hr hle
  rw [Item.covers, Bool.or_eq_true, Option.any_eq_true] at hcovers
  rcases hcovers with hall | ⟨s, hs, hle'⟩
  · exact h.whole hall r hr
  · rw [decide_eq_true_iff] at hle'
    exact h.covered s hs r hr (by omega)

/-- Nothing is cached before the last second of which nothing is cached. -/
theorem lt_of_uncachedUpTo (hs : item.history.Sorted) {r : Record} (hr : r.time.Regular)
    (hlt : item.uncachedUpTo < r.sec) :
    ∃ x ∈ item.history.records, x.sec ≤ r.sec := by
  rw [uncachedUpTo, hs.tidy.oldest?_eq] at hlt
  cases hrecords : item.history.records with
  | nil =>
    rw [hrecords] at hlt
    have hle : r.sec ≤ Timestamp.horizon := hr.le
    exact absurd hlt (Int.not_lt.2 hle)
  | cons oldest rest =>
    rw [hrecords, List.head?_cons] at hlt
    exact ⟨oldest, List.mem_cons_self, by simp only [] at hlt; omega⟩

/-- **What is cached** is enough for a request for which nothing is missing. -/
theorem Coherent.enough (h : item.Coherent stored) (hs : item.history.Sorted)
    (hreg : ∀ r ∈ stored, r.time.Regular) (hmissing : q.missing? item = none) :
    q.Enough stored item.history.records := by
  rw [Request.missing?] at hmissing
  simp only [] at hmissing
  by_cases hcount : q.count = 0
  · rw [if_pos hcount] at hmissing
    split at hmissing
    · next hhas =>
      refine .of_complete hreg fun r hr hlt => ?_
      rw [Request.start, if_pos hcount] at hlt
      rcases hhas with hcovers | hbelow
      · exact h.covers hcovers r hr (Int.le_of_lt hlt)
      · obtain ⟨x, hx, hle⟩ := lt_of_uncachedUpTo hs (hreg r hr) (Int.lt_of_le_of_lt hbelow hlt)
        exact h.floor x hx r hr hle
    · cases hmissing
  · rw [if_neg hcount] at hmissing
    split at hmissing
    · next hhas =>
      rcases hhas with hcovers | hcounted
      · refine .of_complete hreg fun r hr hlt => ?_
        rw [Request.start, if_neg hcount] at hlt
        exact h.covers hcovers r hr (Int.le_of_lt hlt)
      · refine .of_count hcount hs.inOrder ?_ h.floor
        have hmin := hs.tidy.min_countUpTo hs.inOrder q.upTo q.count
        rw [Request.reached]
        omega
    · cases hmissing

end Item

/-! ## Extended histories -/

/-- What was read below the history of `old` for a request, while others may have made `item` of it
and the records of the store were `before` first and are `after` now. -/
structure Extension (q : Request) (before after : List Record) (old item : Item) (fill : Fill)
    (fetched : Fetched) : Prop where
  missing : q.missing? old = some fill
  brought : fill.extent.Brought q (· ∈ before) (· ∈ after) old.uncachedUpTo fetched
  regular : ∀ r ∈ after, r.time.Regular
  sorted : old.history.Sorted
  rising : Rising old.history.records
  kept : ∀ r ∈ old.history.records, r ∈ item.history.records
  /-- What was written meanwhile is cached. -/
  written : ∀ r ∈ after, r ∉ before → r ∈ item.history.records
  coherent : item.Coherent after
  sorted' : item.history.Sorted

namespace Extension

variable {q : Request} {before after : List Record} {old item : Item} {fill : Fill}
  {fetched : Fetched}

/-- The history with what was read below it. -/
abbrev extended (item : Item) (fetched : Fetched) : List Record :=
  Cache.below item.history fetched.records ++ item.history.records

theorem mem_of_fetched (h : Extension q before after old item fill fetched) {r : Record}
    (hr : r ∈ fetched.records) : r ∈ extended item fetched := by
  obtain ⟨m, hspan, -⟩ := h.brought.spans
  rw [extended, List.mem_append, Cache.below, List.mem_filter]
  cases hrecords : item.history.records with
  | nil => exact Or.inl ⟨hr, rfl⟩
  | cons oldest rest =>
    by_cases hlt : r.sec < oldest.sec
    · exact Or.inl ⟨hr, by rw [List.head?_cons, Option.all_some, decide_eq_true_iff]; exact hlt⟩
    · right
      rw [← hrecords]
      refine h.coherent.floor oldest ?_ r (hspan.high r hr).1 (Int.not_lt.1 hlt)
      rw [hrecords]
      exact List.mem_cons_self

/-- From the second on from which all was read, nothing is missing. -/
theorem complete (h : Extension q before after old item fill fetched) {m : Int}
    (hspan : Spans (· ∈ before) (· ∈ after) (fill.extent.after q) old.uncachedUpTo m fetched.records)
    {r : Record} (hr : r ∈ after) (hm : m ≤ r.sec) (hstart : fill.extent.after q < r.sec) :
    r ∈ extended item fetched := by
  by_cases hbefore : r ∈ before
  · by_cases hle : r.sec ≤ old.uncachedUpTo
    · exact h.mem_of_fetched (hspan.complete r hbefore hm hstart hle)
    · obtain ⟨x, hx, hxr⟩ :=
        Item.lt_of_uncachedUpTo h.sorted (h.regular r hr) (Int.not_le.1 hle)
      exact List.mem_append_right _ (h.coherent.floor x (h.kept x hx) r hr hxr)
  · exact List.mem_append_right _ (h.written r hr hbefore)

theorem floor (h : Extension q before after old item fill fetched) :
    ∀ x ∈ extended item fetched, ∀ r ∈ after, x.sec ≤ r.sec → r ∈ extended item fetched := by
  intro x hx r hr hle
  obtain ⟨m, hspan, -⟩ := h.brought.spans
  rcases List.mem_append.1 hx with hx | hx
  · have hx := (List.mem_filter.1 hx).1
    have h1 := hspan.floor x hx
    have h2 := (hspan.high x hx).2.1
    exact h.complete hspan hr (by omega) (by omega)
  · exact List.mem_append_right _ (h.coherent.floor x hx r hr hle)

/-- What was read is counted in addition to what was cached. -/
theorem reached (h : Extension q before after old item fill fetched) :
    q.reached old.history.records + q.reached fetched.records ≤
      q.reached (extended item fetched) := by
  obtain ⟨m, hspan, -⟩ := h.brought.spans
  have hnodup : (old.history.records ++ fetched.records).Nodup := by
    refine List.nodup_append.2 ⟨h.rising.nodup, hspan.nodup, fun a ha b hb hab => ?_⟩
    subst hab
    have hle := (hspan.high a hb).2.2
    rw [Item.uncachedUpTo, h.sorted.tidy.oldest?_eq] at hle
    cases holdest : old.history.records.head? with
    | none =>
      rw [List.head?_eq_none_iff.1 holdest] at ha
      exact absurd ha List.not_mem_nil
    | some oldest =>
      have hoa : oldest.sec ≤ a.sec :=
        Record.sec_le_of_le (h.sorted.inOrder.head_le holdest a ha)
      rw [holdest] at hle
      simp only [] at hle
      omega
  have hsub : (old.history.records ++ fetched.records) ⊆ extended item fetched := by
    intro r hr
    rcases List.mem_append.1 hr with hr | hr
    · exact List.mem_append_right _ (h.kept r hr)
    · exact h.mem_of_fetched hr
  rw [← Request.reached_append]
  exact (List.subperm_of_subset hnodup hsub).countP_le _

theorem needed_eq (h : Extension q before after old item fill fetched) {start : Int} {needed : Nat}
    (hextent : fill.extent = .count start needed) : q.count ≠ 0 ∧ 0 < needed ∧
      q.count ≤ q.reached old.history.records + needed := by
  rcases Request.missing?_eq_some h.missing with ⟨-, -, -, rfl⟩ | ⟨hcount, -, hfew, rfl⟩
  · cases hextent
  · cases hextent
    have hmin := h.sorted.tidy.min_countUpTo h.sorted.inOrder q.upTo q.count
    rw [Request.reached]
    exact ⟨hcount, by omega, by omega⟩

/-- If the whole range was read, nothing is missing from it. -/
theorem complete_of_whole (h : Extension q before after old item fill fetched) {m : Int}
    (hspan : Spans (· ∈ before) (· ∈ after) (fill.extent.after q) old.uncachedUpTo m fetched.records)
    (hm : m ≤ fill.extent.after q + 1) {r : Record} (hr : r ∈ after)
    (hle : fill.extent.start ≤ r.sec) : r ∈ extended item fetched := by
  have hlt : fill.extent.after q < r.sec := by
    have hpos : 1 ≤ r.sec := (h.regular r hr).pos
    have hafter := fill.extent.after_le q
    rw [Request.exclusive] at hafter
    split at hafter <;> omega
  exact h.complete hspan hr (by omega) hlt

/-- **What was read** is enough, together with what was cached. -/
theorem enough (h : Extension q before after old item fill fetched) :
    q.Enough after (extended item fetched) := by
  obtain ⟨m, hspan, hdone⟩ := h.brought.spans
  rcases hdone with hm | ⟨start, needed, hextent, hneeded⟩
  · refine .of_complete h.regular fun r hr hlt => h.complete_of_whole hspan hm hr ?_
    rw [Request.start_of_missing h.missing]
    exact Int.le_of_lt hlt
  · obtain ⟨hcount, -, hfew⟩ := h.needed_eq hextent
    have hreached := h.reached
    exact .of_count hcount (Cache.inOrder_below_append h.sorted' h.brought.inOrder List.suffix_rfl)
      (by omega) h.floor

/-- What an extended item may vouch for. -/
theorem coherent_of (h : Extension q before after old item fill fetched) {g : History}
    (hg : g.records = extended item fetched) {covered : Option Int} {all : Bool}
    (hall : all = true → item.cachedAll = true)
    (hcovered : ∀ sec, covered = some sec → ∀ r ∈ after, sec ≤ r.sec → r ∈ extended item fetched) :
    ({ item with history := g, coveredFrom := covered, cachedAll := all } : Item).Coherent after where
  floor := by
    show ∀ x ∈ g.records, ∀ r ∈ after, x.sec ≤ r.sec → r ∈ g.records
    rw [hg]
    exact h.floor
  covered := by
    show ∀ sec, covered = some sec → ∀ r ∈ after, sec ≤ r.sec → r ∈ g.records
    rw [hg]
    exact hcovered
  whole hall' r hr := by
    show r ∈ g.records
    rw [hg]
    exact List.mem_append_right _ (h.coherent.whole (hall hall') r hr)

/-- An extended item that covers something is settled. -/
theorem settled_of (h : Extension q before after old item fill fetched) {g : History}
    (hg : g.records = extended item fetched) {sec : Int} {all : Bool}
    (hall : all = true → item.cachedAll = true)
    (hcovered : ∀ r ∈ after, sec ≤ r.sec → r ∈ extended item fetched) :
    ({ item with history := g, coveredFrom := some sec, cachedAll := all } : Item).Coherent after ∧
      ({ item with history := g, coveredFrom := some sec, cachedAll := all } : Item).Settled
        after := by
  refine ⟨h.coherent_of hg hall fun sec' hsec => ?_, fun hnone => ?_⟩
  · cases hsec
    exact hcovered
  · cases hnone

/-- A window is read as a whole. -/
theorem marked_window (h : Extension q before after old item fill fetched) {g : History}
    (hg : g.records = extended item fetched) {start : Int} (hextent : fill.extent = .window start) :
    ((Extent.window start).mark fetched { item with history := g }).Coherent after ∧
      ((Extent.window start).mark fetched { item with history := g }).Settled after := by
  obtain ⟨m, hspan, hdone⟩ := h.brought.spans
  have hm : m ≤ fill.extent.after q + 1 := by
    refine hdone.resolve_right ?_
    rintro ⟨_, _, hcontra, -⟩
    rw [hextent] at hcontra
    cases hcontra
  refine h.settled_of hg (fun h => by cases h) fun r hr hle => ?_
  exact h.complete_of_whole hspan hm hr (by rw [hextent]; exact hle)

/-- If too few records were found, the whole range was read. -/
theorem whole_of_few (h : Extension q before after old item fill fetched) {start : Int}
    {needed : Nat} (hextent : fill.extent = .count start needed) (hfew : fetched.counted < needed) :
    ∀ r ∈ after, start ≤ r.sec → r ∈ extended item fetched := by
  intro r hr hle
  obtain ⟨m, hspan, hdone⟩ := h.brought.spans
  obtain ⟨hreached, -⟩ := h.brought.counted start needed hextent
  have hm : m ≤ fill.extent.after q + 1 := by
    refine hdone.resolve_right ?_
    rintro ⟨_, _, heq, hneeded⟩
    rw [hextent] at heq
    cases heq
    omega
  exact h.complete_of_whole hspan hm hr (by rw [hextent]; exact hle)

/-- Counted records are marked from the oldest of them on, or from the start if they are too few. -/
theorem marked_count (h : Extension q before after old item fill fetched) {g : History}
    (hg : g.records = extended item fetched) {start : Int} {needed : Nat}
    (hextent : fill.extent = .count start needed) :
    ((Extent.count start needed).mark fetched { item with history := g }).Coherent after ∧
      ((Extent.count start needed).mark fetched { item with history := g }).Settled after := by
  have hwhole := h.whole_of_few hextent
  rw [Extent.mark]
  split
  · next oldest holdest =>
    split
    · refine h.settled_of hg (fun h => h) fun r hr hle => ?_
      obtain ⟨m, hspan, -⟩ := h.brought.spans
      have hmem : oldest ∈ fetched.records := List.mem_of_head? holdest
      have h1 := hspan.floor oldest hmem
      have h2 := (hspan.high oldest hmem).2.1
      exact h.complete hspan hr (by omega) (by omega)
    · next hfew =>
      rw [not_or, Nat.not_le] at hfew
      exact h.settled_of hg (fun h => h) (hwhole hfew.1)
  · next hnil =>
    have hfew : fetched.counted < needed := by
      rw [(h.brought.counted start needed hextent).2 (List.head?_eq_none_iff.1 hnil)]
      exact (h.needed_eq hextent).2.1
    split
    · -- from the first second on there is nothing else, and the item covers what it did
      next hstart =>
      refine ⟨h.coherent_of hg (fun h => h) fun sec hsec r hr hle => ?_, fun _ r hr => ?_⟩
      · exact List.mem_append_right _ (h.coherent.covered sec hsec r hr hle)
      · show r ∈ g.records
        rw [hg]
        refine hwhole hfew r hr ?_
        have hpos : 1 ≤ r.sec := (h.regular r hr).pos
        omega
    · exact h.settled_of hg (fun h => h) (hwhole hfew)

/-- **An extended item** vouches truly for what it is marked with, and is settled. -/
theorem marked (h : Extension q before after old item fill fetched) {g : History}
    (hg : g.records = extended item fetched) :
    (fill.extent.mark fetched { item with history := g }).Coherent after ∧
      (fill.extent.mark fetched { item with history := g }).Settled after := by
  cases hextent : fill.extent with
  | window start => exact h.marked_window hg hextent
  | count start needed => exact h.marked_count hg hextent

end Extension

end HistoryCache
