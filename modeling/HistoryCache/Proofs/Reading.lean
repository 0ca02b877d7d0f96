import HistoryCache.Proofs.Interleaving
import HistoryCache.Proofs.Search

/-!
# What a request reads

The readings of a request, whoever answers their questions.  All questions are about the item and
the kind of the request (`Request.Concerns`), so what holds of every record in the answers to such
questions holds of what was read (`yields_fetch`).
-/

namespace HistoryCache

namespace Record

theorem oldestFirst_perm (rs : List Record) : (oldestFirst rs).Perm rs := List.mergeSort_perm rs _

theorem newestFirst_perm (rs : List Record) : (newestFirst rs).Perm rs := List.mergeSort_perm rs _

theorem mem_oldestFirst {rs : List Record} {r : Record} : r ∈ oldestFirst rs ↔ r ∈ rs :=
  (oldestFirst_perm rs).mem_iff

theorem mem_newestFirst {rs : List Record} {r : Record} : r ∈ newestFirst rs ↔ r ∈ rs :=
  (newestFirst_perm rs).mem_iff

theorem inOrder_oldestFirst (rs : List Record) : InOrder (oldestFirst rs) := by
  refine (List.pairwise_mergeSort (fun a b c hab hbc => ?_) (fun a b => ?_) rs).imp fun h => ?_
  · rw [decide_eq_true_iff] at *
    exact Timestamp.le_trans hab hbc
  · simpa using Timestamp.le_total a.time b.time
  · exact of_decide_eq_true h

theorem inOrder_reverse_newestFirst (rs : List Record) : InOrder (newestFirst rs).reverse := by
  rw [InOrder, List.pairwise_reverse]
  refine (List.pairwise_mergeSort (fun a b c hab hbc => ?_) (fun a b => ?_) rs).imp fun h => ?_
  · rw [decide_eq_true_iff] at *
    exact Timestamp.le_trans hbc hab
  · simpa using Timestamp.le_total b.time a.time
  · exact of_decide_eq_true h

end Record

namespace StoreRead

/-- The kind of values that a question is about. -/
def kind : StoreRead → Kind
  | byTime _ kind _ _ => kind
  | byCount _ kind _ _ _ => kind

/-- The item that a question is about. -/
def item : StoreRead → ItemId
  | byTime item _ _ _ => item
  | byCount item _ _ _ _ => item

end StoreRead

namespace Request

variable {q : Request} {G : Record → Prop} {A : StoreRead → List Record → Prop}

/-- All records in the answers to questions about the item and kind of a request are as `G` says. -/
def Brings (q : Request) (G : Record → Prop) (A : StoreRead → List Record → Prop) : Prop :=
  ∀ question records, question.item = q.item → question.kind = q.kind → A question records →
    ∀ r ∈ records, G r

/-- The second from which a batch may be incomplete. -/
def splitAt (batch : List Record) (upTo : Int) : Int := (oldestSecond? batch).getD upTo

/-- The records of a batch that are not of its oldest second. -/
def whole (batch : List Record) (upTo : Int) : List Record :=
  (Record.newestFirst batch).filter fun r => decide (r.sec ≠ splitAt batch upTo)

/-- A batch splits at the second of one of its records, and no record is of an earlier one. -/
theorem splitAt_spec {batch : List Record} {upTo : Int} (hne : batch ≠ []) :
    (∃ x ∈ batch, splitAt batch upTo = x.sec) ∧ ∀ x ∈ batch, splitAt batch upTo ≤ x.sec := by
  have hperm := Record.newestFirst_perm batch
  have hne' : Record.newestFirst batch ≠ [] := fun h => hne (by rw [h] at hperm; exact hperm.nil_eq.symm)
  have hlast : splitAt batch upTo = ((Record.newestFirst batch).getLast hne').sec := by
    rw [splitAt, oldestSecond?, List.getLast?_eq_some_getLast hne', Option.map_some,
      Option.getD_some]
  have hin := Record.inOrder_reverse_newestFirst batch
  refine ⟨⟨_, Record.mem_newestFirst.1 (List.getLast_mem hne'), hlast⟩, fun x hx => ?_⟩
  rw [hlast]
  have hfirst : (Record.newestFirst batch).reverse.head? =
      some ((Record.newestFirst batch).getLast hne') := by
    rw [List.head?_reverse, List.getLast?_eq_some_getLast hne']
  exact Record.sec_le_of_le (hin.head_le hfirst x
    (List.mem_reverse.2 (Record.mem_newestFirst.2 hx)))

/-- **A counting reading** goes round by round.  What every round keeps (`Inv`, of what was found, of
the number still wanted, and of the second to go down from) is in hand when it ends.  No round wants more
than the first. -/
theorem yields_countBackFrom {P : List Record → Prop} {Inv : List Record → Nat → Int → Prop}
    {after : Int} {count : Nat}
    (hshort : ∀ found needed upTo batch, needed ≤ count → Inv found needed upTo →
      A (.byCount q.item q.kind after (following needed) upTo) batch → batch.length ≤ needed →
      P (found ++ batch))
    (hround : ∀ found needed upTo batch second, needed ≤ count → Inv found needed upTo →
      A (.byCount q.item q.kind after (following needed) upTo) batch → needed < batch.length →
      A (.byTime q.item q.kind (splitAt batch upTo - 1) (splitAt batch upTo)) second →
      ((count ≤ q.reached (found ++ whole batch upTo ++ second) ∨
          splitAt batch upTo - 1 ≤ after) → P (found ++ whole batch upTo ++ second)) ∧
      (¬ (count ≤ q.reached (found ++ whole batch upTo ++ second) ∨
          splitAt batch upTo - 1 ≤ after) →
        Inv (found ++ whole batch upTo ++ second)
          (count - q.reached (found ++ whole batch upTo ++ second)) (splitAt batch upTo - 1) ∧
        (upTo ≤ splitAt batch upTo - 1 → P (found ++ whole batch upTo ++ second))))
    (idle : Nat) (found : List Record) (needed : Nat) (upTo : Int) (hneeded : needed ≤ count)
    (hinv : Inv found needed upTo) :
    (q.countBackFrom after count idle found needed upTo).Yields A P := by
  induction idle, found, needed, upTo using countBackFrom.induct q after count with
  | case1 idle found needed upTo ih ih' =>
    rw [countBackFrom]
    intro batch hbatch
    by_cases hlen : batch.length ≤ needed
    · simp only [if_pos hlen]
      exact hshort found needed upTo batch hneeded hinv hbatch hlen
    · simp only [if_neg hlen]
      intro second hsecond
      obtain ⟨hstop, hgo⟩ :=
        hround found needed upTo batch second hneeded hinv hbatch (Nat.lt_of_not_le hlen) hsecond
      by_cases hleft : count ≤ q.reached (found ++ whole batch upTo ++ second) ∨
          splitAt batch upTo - 1 ≤ after
      · have hP := hstop hleft
        rw [whole, splitAt] at hleft hP
        simp only [if_pos hleft]
        exact hP
      · obtain ⟨hinv', hP⟩ := hgo hleft
        rw [whole, splitAt] at hleft hinv' hP
        simp only [if_neg hleft]
        split
        · next hlower => exact ih batch second hleft hlower (Nat.sub_le _ _) hinv'
        · next hlower =>
          rw [not_or] at hlower
          cases idle with
          | zero => exact hP (by omega)
          | succ idle => exact ih' batch second (Nat.sub_le _ _) hinv'

theorem yields_countBack_forall (h : q.Brings G A) (start : Int) (count : Nat) (upTo : Int) :
    (q.countBack start count upTo).Yields A fun rs => ∀ r ∈ rs, G r := by
  refine @yields_countBackFrom q A _ (fun found _ _ => ∀ r ∈ found, G r) _ _ ?_ ?_ _ _ _ _
    (Nat.le_refl _) (by simp)
  · intro found needed upTo batch _ hfound hbatch _ r hr
    rcases List.mem_append.1 hr with hr | hr
    · exact hfound r hr
    · exact h _ batch rfl rfl hbatch r hr
  · intro found needed upTo batch second _ hfound hbatch _ hsecond
    have hall : ∀ r ∈ found ++ whole batch upTo ++ second, G r := by
      intro r hr
      rw [List.mem_append, List.mem_append] at hr
      rcases hr with (hr | hr) | hr
      · exact hfound r hr
      · exact h _ batch rfl rfl hbatch r (Record.mem_newestFirst.1 (List.mem_filter.1 hr).1)
      · exact h _ second rfl rfl hsecond r hr
    exact ⟨fun _ => hall, fun _ => ⟨hall, fun _ => hall⟩⟩

theorem yields_readRange {P : List Record → Prop} {after upTo : Int}
    (h : ∀ records, A (.byTime q.item q.kind after upTo) records → P records) :
    (q.readRange after upTo).Yields A P :=
  Reading.yields_read h

/-- A window is read in one go. -/
theorem yields_fetchWindow {P : Fetched → Prop} {upTo : Int}
    (h : ∀ records, A (.byTime q.item q.kind (exclusive q.windowStart) upTo) records →
      P ⟨Record.oldestFirst records, 0⟩) : (q.fetchWindow upTo).Yields A P :=
  Reading.Yields.bind (yields_readRange h)

/-- A count is read after the seconds that do not count. -/
theorem yields_fetchCount {P : Fetched → Prop} {needed : Nat} {upTo : Int}
    (hnewer : ∀ newer, (q.upTo.sec < upTo ∧ A (.byTime q.item q.kind q.upTo.sec upTo) newer ∨
        ¬ q.upTo.sec < upTo ∧ newer = []) →
      (q.countBack q.countStart needed (min upTo q.upTo.sec)).Yields A fun older =>
        P ⟨Record.oldestFirst (newer ++ older), older.length⟩) :
    (q.fetchCount needed upTo).Yields A P := by
  rw [fetchCount]
  split
  · next hlt =>
    refine Reading.Yields.bind (yields_readRange fun newer hA => ?_)
    exact Reading.Yields.bind (hnewer newer (Or.inl ⟨hlt, hA⟩))
  · next hlt =>
    exact Reading.Yields.bind (r := pure []) (Reading.Yields.bind (hnewer [] (Or.inr ⟨hlt, rfl⟩)))

/-- What is missing below a history is a window or a count. -/
theorem missing?_eq_some {item : Item} {fill : Fill} (h : q.missing? item = some fill) :
    q.count = 0 ∧ item.covers q.windowStart = false ∧ q.windowStart < item.uncachedUpTo ∧
        fill = ⟨.window q.windowStart, item.tailWrites, q.fetchWindow item.uncachedUpTo⟩ ∨
      q.count ≠ 0 ∧ item.covers q.countStart = false ∧
        item.history.countUpTo q.upTo q.count < q.count ∧
        fill = ⟨.count q.countStart (q.count - item.history.countUpTo q.upTo q.count),
          item.tailWrites,
          q.fetchCount (q.count - item.history.countUpTo q.upTo q.count) item.uncachedUpTo⟩ := by
  rw [missing?] at h
  simp only [] at h
  split at h
  · next hcount =>
    split at h
    · cases h
    · next hnot =>
      cases h
      rw [not_or, Bool.not_eq_true, Int.not_le] at hnot
      exact Or.inl ⟨hcount, hnot.1, hnot.2, rfl⟩
  · next hcount =>
    split at h
    · cases h
    · next hnot =>
      cases h
      rw [not_or, Bool.not_eq_true, Nat.not_le] at hnot
      exact Or.inr ⟨hcount, hnot.1, hnot.2, rfl⟩

theorem tailWrites_of_missing {item : Item} {fill : Fill} (h : q.missing? item = some fill) :
    fill.tailWrites = item.tailWrites := by
  rcases missing?_eq_some h with ⟨-, -, -, rfl⟩ | ⟨-, -, -, rfl⟩ <;> rfl

/-- What is read below a history is in order, and as the answers are. -/
theorem yields_fetch (h : q.Brings G A) {item : Item} {fill : Fill}
    (hfill : q.missing? item = some fill) :
    fill.reading.Yields A fun fetched => InOrder fetched.records ∧ ∀ r ∈ fetched.records, G r := by
  have horder : ∀ rs : List Record, (∀ r ∈ rs, G r) →
      InOrder (Record.oldestFirst rs) ∧ ∀ r ∈ Record.oldestFirst rs, G r := fun rs hrs =>
    ⟨Record.inOrder_oldestFirst rs, fun r hr => hrs r (Record.mem_oldestFirst.1 hr)⟩
  rcases missing?_eq_some hfill with ⟨-, -, -, rfl⟩ | ⟨-, -, -, rfl⟩
  · exact yields_fetchWindow fun records hA => horder _ (h _ records rfl rfl hA)
  · refine yields_fetchCount fun newer hnewer => ?_
    refine (yields_countBack_forall h _ _ _).mono (fun _ _ hA => hA) fun older holder => ?_
    refine horder _ fun r hr => ?_
    rcases List.mem_append.1 hr with hr | hr
    · rcases hnewer with ⟨-, hA⟩ | ⟨-, rfl⟩
      · exact h _ newer rfl rfl hA r hr
      · exact absurd hr List.not_mem_nil
    · exact holder r hr

end Request

end HistoryCache
