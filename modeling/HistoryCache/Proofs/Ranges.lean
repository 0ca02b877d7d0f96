import HistoryCache.Proofs.Reading
import HistoryCache.Proofs.Serving
import HistoryCache.Proofs.Stored

/-!
# What the readings of a request bring

The answers to the questions of a request hold every record that the store surely has (`low`) and
none but those that it may have (`high`); while others write, the two are not the same
(`Request.Truthful`).  Piece by piece a reading covers a range of seconds from some second on
(`Spans`), and what it covers in the end is all of the range, or enough for the count.

* `yields_countBack`, `yields_fetches`: what is read to extend a history.
* `yields_direct`: the answer that takes no cache is what is wanted of enough records
  (`Request.Serves`).
* `Request.Serves.wanted_eq`: what is wanted of enough records is what is wanted of all.
-/

namespace HistoryCache

/-- Records of the seconds after `after` and up to `upTo`, all of those from second `m` on. -/
structure Spans (low high : Record → Prop) (after upTo m : Int) (rs : List Record) : Prop where
  nodup : rs.Nodup
  high : ∀ r ∈ rs, high r ∧ after < r.sec ∧ r.sec ≤ upTo
  floor : ∀ r ∈ rs, m ≤ r.sec
  complete : ∀ r, low r → m ≤ r.sec → after < r.sec → r.sec ≤ upTo → r ∈ rs

namespace Spans

variable {low high : Record → Prop} {after upTo u m m' : Int} {rs rs' : List Record}

theorem nil (h : upTo < m ∨ upTo ≤ after) : Spans low high after upTo m [] where
  nodup := List.nodup_nil
  high _ hr := absurd hr List.not_mem_nil
  floor _ hr := absurd hr List.not_mem_nil
  complete r _ h1 h2 h3 := by omega

theorem perm (h : Spans low high after upTo m rs) (hp : rs'.Perm rs) :
    Spans low high after upTo m rs' where
  nodup := hp.nodup_iff.2 h.nodup
  high r hr := h.high r (hp.mem_iff.1 hr)
  floor r hr := h.floor r (hp.mem_iff.1 hr)
  complete r h1 h2 h3 h4 := hp.mem_iff.2 (h.complete r h1 h2 h3 h4)

theorem mono {low' : Record → Prop} (h : Spans low high after upTo m rs)
    (hlow : ∀ r, low' r → low r) : Spans low' high after upTo m rs :=
  ⟨h.nodup, h.high, h.floor, fun r hr => h.complete r (hlow r hr)⟩

/-- What covers the seconds below what is covered goes on with it. -/
theorem append (h : Spans low high after upTo m rs) (h' : Spans low high after u m' rs')
    (hu : u ≤ upTo) (hlt : u < m) (hgap : u = m - 1 ∨ u = upTo) (hm : m' ≤ m) :
    Spans low high after upTo m' (rs ++ rs') where
  nodup := by
    refine List.nodup_append.2 ⟨h.nodup, h'.nodup, fun a ha b hb hab => ?_⟩
    subst hab
    have := h.floor a ha
    have := (h'.high a hb).2.2
    omega
  high r hr := by
    rcases List.mem_append.1 hr with hr | hr
    · exact h.high r hr
    · obtain ⟨h1, h2, h3⟩ := h'.high r hr
      exact ⟨h1, h2, by omega⟩
  floor r hr := by
    rcases List.mem_append.1 hr with hr | hr
    · have := h.floor r hr
      omega
    · exact h'.floor r hr
  complete r h1 h2 h3 h4 := by
    rw [List.mem_append]
    by_cases hr : m ≤ r.sec
    · exact Or.inl (h.complete r h1 hr h3 h4)
    · exact Or.inr (h'.complete r h1 h2 h3 (by omega))

/-- A range that begins after second `u` has nothing up to there, and so from any second before it. -/
theorem lower {p : Prop} {second : Int} (h : Spans low high after u m rs) (hm : m ≤ u + 1)
    (hdone : m ≤ after + 1 ∨ p) (hu : u ≤ second) : ∃ m', Spans low high (min after second) u m' rs ∧
      m' ≤ u + 1 ∧ (m' ≤ min after second + 1 ∨ p) := by
  by_cases hafter : after ≤ second
  · rw [Int.min_eq_left hafter]
    exact ⟨m, h, hm, hdone⟩
  · have hnone : rs = [] := List.eq_nil_iff_forall_not_mem.2 fun r hr => by
      obtain ⟨-, h1, h2⟩ := h.high r hr
      omega
    subst hnone
    exact ⟨u + 1, .nil (Or.inl (by omega)), Int.le_refl _, Or.inl (by omega)⟩

end Spans

theorem Request.reached_append (q : Request) (rs rs' : List Record) :
    q.reached (rs ++ rs') = q.reached rs + q.reached rs' := by
  rw [reached, reached, reached, List.countP_append]

namespace Request

variable {q : Request} {low high : Record → Prop} {A : StoreRead → List Record → Prop}

/-- The answers to questions about the item and kind of a request leave out no record that the store
surely has and hold none but those that it may have.  An answer by count holds no more than are wanted,
and leaves out only what is of no later second than all it holds, and only if it is full. -/
structure Truthful (q : Request) (low high : Record → Prop)
    (A : StoreRead → List Record → Prop) : Prop where
  byTime : ∀ {after upTo : Int} {records : List Record},
    A (.byTime q.item q.kind after upTo) records → Spans low high after upTo (after + 1) records
  byCount : ∀ {after upTo : Int} {count : Nat} {records : List Record},
    A (.byCount q.item q.kind after count upTo) records →
      records.Nodup ∧ (∀ r ∈ records, high r ∧ after < r.sec ∧ r.sec ≤ upTo) ∧
        ∀ r, low r → after < r.sec → r.sec ≤ upTo →
          r ∈ records ∨ count ≤ records.length ∧ ∀ x ∈ records, r.sec ≤ x.sec
  limited : ∀ {after upTo : Int} {count : Nat} {records : List Record},
    A (.byCount q.item q.kind after count upTo) records → records.length ≤ count

theorem Truthful.mono {low' : Record → Prop} (hA : q.Truthful low high A)
    (hlow : ∀ r, low' r → low r) : q.Truthful low' high A where
  byTime h := (hA.byTime h).mono hlow
  limited := hA.limited
  byCount h := ⟨(hA.byCount h).1, (hA.byCount h).2.1, fun r hr => (hA.byCount h).2.2 r (hlow r hr)⟩

/-- The later seconds of a full batch, and then its oldest second, which is read again. -/
theorem Truthful.round (hA : q.Truthful low high A) {after upTo : Int} {limit needed : Nat}
    {batch second : List Record} (hbatch : A (.byCount q.item q.kind after limit upTo) batch)
    (hlen : needed < batch.length)
    (hsecond : A (.byTime q.item q.kind (splitAt batch upTo - 1) (splitAt batch upTo)) second) :
    after < splitAt batch upTo ∧ splitAt batch upTo ≤ upTo ∧
      Spans low high after upTo (splitAt batch upTo) (whole batch upTo ++ second) := by
  obtain ⟨hnodup, hhigh, hleft⟩ := hA.byCount hbatch
  have hne : batch ≠ [] := by
    rintro rfl
    exact absurd hlen (Nat.not_lt_zero _)
  obtain ⟨⟨x, hx, hsplit⟩, hmin⟩ := @splitAt_spec batch upTo hne
  obtain ⟨-, hx1, hx2⟩ := hhigh x hx
  have hmem : ∀ r, r ∈ whole batch upTo ↔ r ∈ batch ∧ r.sec ≠ splitAt batch upTo := by
    intro r
    rw [whole, List.mem_filter, Record.mem_newestFirst, decide_eq_true_iff]
  have hwhole : Spans low high after upTo (splitAt batch upTo + 1) (whole batch upTo) := by
    refine ⟨?_, fun r hr => hhigh r ((hmem r).1 hr).1, fun r hr => ?_, fun r h1 h2 h3 h4 => ?_⟩
    · exact ((Record.newestFirst_perm batch).nodup_iff.2 hnodup).filter _
    · have h1 := hmin r ((hmem r).1 hr).1
      have h2 := ((hmem r).1 hr).2
      omega
    · refine (hmem r).2 ⟨(hleft r h1 h3 h4).resolve_right fun h => ?_, by omega⟩
      have := h.2 x hx
      omega
  have hspan := hA.byTime hsecond
  refine ⟨by omega, by omega, hwhole.append (u := splitAt batch upTo) ?_ (by omega) (by omega)
    (by omega) (by omega)⟩
  refine ⟨hspan.nodup, fun r hr => ?_, fun r hr => ?_, fun r h1 h2 _ h4 => ?_⟩
  · obtain ⟨h1, h2, h3⟩ := hspan.high r hr
    exact ⟨h1, by omega, h3⟩
  · have := hspan.floor r hr
    omega
  · exact hspan.complete r h1 (by omega) (by omega) h4

/-- **Counting back** covers the whole range, or from some second on as many records as are wanted,
unless the largest count is wanted, which none follows. -/
theorem Truthful.yields_countBack (hA : q.Truthful low high A) (start : Int) {count : Nat}
    (hcount : ∀ r, low r → count < maxCount) (upTo : Int) :
    (q.countBack start count upTo).Yields A fun rs =>
      ∃ m, m ≤ upTo + 1 ∧ Spans low high (exclusive start) upTo m rs ∧
        (m ≤ exclusive start + 1 ∨ count ≤ q.reached rs) := by
  rw [countBack]
  generalize exclusive start = after
  refine @yields_countBackFrom q A _ (fun found _ second => second ≤ upTo ∧
    Spans low high after upTo (second + 1) found) _ _ ?_ ?_ _ _ _ _ (Nat.le_refl _)
      ⟨Int.le_refl _, .nil (by omega)⟩
  · rintro found needed second batch hneeded ⟨hle, hfound⟩ hbatch hlen
    obtain ⟨hnodup, hhigh, hleft⟩ := hA.byCount hbatch
    have hrest : Spans low high after second (min (after + 1) (second + 1)) batch := by
      refine ⟨hnodup, hhigh, fun r hr => ?_, fun r h1 _ h3 h4 => ?_⟩
      · have := (hhigh r hr).2.1
        omega
      · rw [following_eq (Nat.lt_of_le_of_lt hneeded (hcount r h1))] at hleft
        exact (hleft r h1 h3 h4).resolve_right fun h => by omega
    exact ⟨_, by omega, hfound.append hrest hle (by omega) (by omega) (by omega), by omega⟩
  · rintro found needed second batch more - ⟨hle, hfound⟩ hbatch hlen hmore
    obtain ⟨h1, h2, hround⟩ := hA.round hbatch hlen hmore
    rw [List.append_assoc]
    have hspan := hfound.append hround hle (by omega) (by omega) (by omega)
    refine ⟨fun hstop => ⟨_, by omega, hspan, by omega⟩, fun _ => ⟨⟨by omega, ?_⟩, by omega⟩⟩
    rw [Int.sub_add_cancel]
    exact hspan

/-- If the largest count is wanted, or one beyond it, nothing is asked for. -/
theorem Truthful.yields_countBack_largest (hA : q.Truthful low high A) (start : Int) {count : Nat}
    (hcount : ¬ count < maxCount) (upTo : Int) : (q.countBack start count upTo).Yields A (· = []) := by
  rw [countBack, countBackFrom, following, if_neg hcount]
  intro batch hbatch
  have hnil : batch = [] := List.length_eq_zero_iff.1 (Nat.le_zero.1 (hA.limited hbatch))
  simp only [hnil, List.length_nil, Nat.zero_le, if_true]
  rfl

/-! ## Readings that extend a history -/

end Request

/-- The second that a range to be covered starts with. -/
def Extent.start : Extent → Int
  | window start => start
  | count start _ => start

/-- Whether a count follows the one that is wanted, so that it can be told whether there are more. -/
def Extent.Countable : Extent → Prop
  | window _ => True
  | count _ needed => needed < maxCount

/-- The second after which a request has read all of a range: the one before the range, or its own if the
range begins later. -/
def Extent.after (q : Request) : Extent → Int
  | window start => Request.exclusive start
  | count start _ => min (Request.exclusive start) (max 0 q.upTo.sec)

theorem Extent.after_le (q : Request) (extent : Extent) :
    extent.after q ≤ Request.exclusive extent.start := by
  cases extent with
  | window start => exact Int.le_refl _
  | count start needed => exact Int.min_le_left _ _

/-- What was read to extend a history that has nothing up to second `upTo`. -/
structure Extent.Brought (q : Request) (low high : Record → Prop) (upTo : Int) (extent : Extent)
    (fetched : Fetched) : Prop where
  inOrder : InOrder fetched.records
  spans : ∃ m, Spans low high (extent.after q) upTo m fetched.records ∧
    (m ≤ extent.after q + 1 ∨
      ∃ start needed, extent = .count start needed ∧ needed ≤ q.reached fetched.records)
  counted : ∀ start needed, extent = .count start needed →
    q.reached fetched.records ≤ fetched.counted ∧ (fetched.records = [] → fetched.counted = 0)

theorem Extent.Brought.mono {q : Request} {low low' high : Record → Prop} {upTo : Int} {extent : Extent}
    {fetched : Fetched} (h : extent.Brought q low high upTo fetched) (hlow : ∀ r, low' r → low r) :
    extent.Brought q low' high upTo fetched := by
  obtain ⟨m, hspan, hdone⟩ := h.spans
  exact ⟨h.inOrder, ⟨m, hspan.mono hlow, hdone⟩, h.counted⟩

namespace Request

variable {q : Request} {low high : Record → Prop} {A : StoreRead → List Record → Prop}

theorem Truthful.yields_fetchWindow (hA : q.Truthful low high A) (upTo : Int) :
    (q.fetchWindow upTo).Yields A
      ((Extent.window q.windowStart).Brought q low high upTo) := by
  refine Request.yields_fetchWindow fun records hrecords => ?_
  refine ⟨Record.inOrder_oldestFirst _, ⟨_, (hA.byTime hrecords).perm ?_, Or.inl (Int.le_refl _)⟩,
    fun _ _ h => by cases h⟩
  exact Record.oldestFirst_perm records

/-- Records after the second of a request are not counted for it. -/
theorem reached_eq_zero {rs : List Record} (h : ∀ r ∈ rs, q.upTo.sec < r.sec) :
    q.reached rs = 0 := by
  refine List.countP_eq_zero.2 fun r hr => ?_
  rw [decide_eq_true_iff]
  intro hle
  have h1 := h r hr
  have h2 : r.sec ≤ q.upTo.sec := Timestamp.sec_le_of_le hle
  omega

theorem Truthful.yields_fetchCount (hA : q.Truthful low high A)
    (hpos : ∀ r, high r → 1 ≤ r.sec) {needed : Nat} (hneeded : ∀ r, low r → needed < maxCount)
    (upTo : Int) : (q.fetchCount needed upTo).Yields A
      ((Extent.count q.countStart needed).Brought q low high upTo) := by
  refine Request.yields_fetchCount fun newer hnewer => ?_
  have hspan : Spans low high (min (exclusive q.countStart) (max 0 q.upTo.sec)) upTo
      (q.upTo.sec + 1) newer := by
    rcases hnewer with ⟨hlt, hnewer⟩ | ⟨hle, rfl⟩
    · have h := hA.byTime hnewer
      refine ⟨h.nodup, fun r hr => ?_, h.floor, fun r h1 h2 _ h4 => h.complete r h1 h2 h2 h4⟩
      obtain ⟨h1, h2, h3⟩ := h.high r hr
      have := hpos r h1
      exact ⟨h1, by omega, h3⟩
    · exact .nil (Or.inl (by omega))
  refine (hA.yields_countBack q.countStart hneeded (min upTo q.upTo.sec)).mono (fun _ _ h => h)
    fun older hback => ?_
  obtain ⟨m, hm, holder, hdone⟩ := hback
  have hzero : q.reached newer = 0 := reached_eq_zero fun r hr => by
    have := hspan.floor r hr
    omega
  have hperm := Record.oldestFirst_perm (newer ++ older)
  have hreached : q.reached (Record.oldestFirst (newer ++ older)) = q.reached older := by
    rw [reached, hperm.countP_eq, ← reached, reached_append, hzero, Nat.zero_add]
  refine ⟨Record.inOrder_oldestFirst _, ?_, fun start needed' h => ?_⟩
  · have hbelow : min upTo q.upTo.sec ≤ max 0 q.upTo.sec := by omega
    obtain ⟨m', holder', hm', hdone'⟩ := holder.lower hm hdone hbelow
    refine ⟨m', (hspan.append holder' (by omega) (by omega) (by omega) (by omega)).perm hperm, ?_⟩
    refine hdone'.imp_right fun hdone => ⟨_, _, rfl, ?_⟩
    rw [hreached]
    exact hdone
  · refine ⟨by rw [hreached]; exact List.countP_le_length, fun hnil => ?_⟩
    change Record.oldestFirst (newer ++ older) = [] at hnil
    rw [hnil] at hperm
    show older.length = 0
    rw [(List.append_eq_nil_iff.1 hperm.nil_eq.symm).2]
    rfl

/-- **What is missing** below a history is read as far as its extent says. -/
theorem Truthful.yields_fill (hA : q.Truthful low high A) (hpos : ∀ r, high r → 1 ≤ r.sec)
    {item : Item} {fill : Fill} (hcountable : ∀ r, low r → fill.extent.Countable)
    (hfill : q.missing? item = some fill) :
    fill.reading.Yields A (fill.extent.Brought q low high item.uncachedUpTo) := by
  rcases missing?_eq_some hfill with ⟨-, -, -, rfl⟩ | ⟨-, -, -, rfl⟩
  · exact hA.yields_fetchWindow _
  · exact hA.yields_fetchCount hpos hcountable _

/-- Of a count that is followed by another, what is missing can be counted. -/
theorem countable_of_missing {item : Item} {fill : Fill} (hcount : q.count < maxCount)
    (hfill : q.missing? item = some fill) : fill.extent.Countable := by
  rcases missing?_eq_some hfill with ⟨-, -, -, rfl⟩ | ⟨-, -, -, rfl⟩
  · trivial
  · exact Nat.lt_of_le_of_lt (Nat.sub_le _ _) hcount

/-- Whatever is asked for, no record is fetched twice. -/
theorem Truthful.yields_distinct (hA : q.Truthful low high A) {item : Item} {fill : Fill}
    (hfill : q.missing? item = some fill) : fill.reading.Yields A fun fetched =>
      InOrder fetched.records ∧ fetched.records.Nodup ∧ ∀ r ∈ fetched.records, high r := by
  have horder : ∀ rs : List Record, rs.Nodup → (∀ r ∈ rs, high r) →
      InOrder (Record.oldestFirst rs) ∧ (Record.oldestFirst rs).Nodup ∧
        ∀ r ∈ Record.oldestFirst rs, high r := fun rs hnodup hhigh =>
    ⟨Record.inOrder_oldestFirst rs, (Record.oldestFirst_perm rs).nodup_iff.2 hnodup,
      fun r hr => hhigh r (Record.mem_oldestFirst.1 hr)⟩
  rcases missing?_eq_some hfill with ⟨-, -, -, rfl⟩ | ⟨-, -, -, rfl⟩
  · refine Request.yields_fetchWindow fun records hrecords => ?_
    have h := hA.byTime hrecords
    exact horder records h.nodup fun r hr => (h.high r hr).1
  · refine Request.yields_fetchCount fun newer hnewer => ?_
    have hnewer' : newer.Nodup ∧ ∀ r ∈ newer, high r ∧ q.upTo.sec < r.sec := by
      rcases hnewer with ⟨-, hnewer⟩ | ⟨-, rfl⟩
      · have h := hA.byTime hnewer
        exact ⟨h.nodup, fun r hr => ⟨(h.high r hr).1, (h.high r hr).2.1⟩⟩
      · exact ⟨List.nodup_nil, fun r hr => absurd hr List.not_mem_nil⟩
    refine ((hA.mono fun _ => False.elim).yields_countBack q.countStart (fun _ => False.elim) _).mono
      (fun _ _ h => h) fun older hback => ?_
    obtain ⟨m, -, holder, -⟩ := hback
    refine horder _ (List.nodup_append.2 ⟨hnewer'.1, holder.nodup, fun a ha b hb hab => ?_⟩)
      fun r hr => ?_
    · have h1 := (hnewer'.2 a ha).2
      have h2 := (holder.high b hb).2.2
      subst hab
      omega
    · rcases List.mem_append.1 hr with hr | hr
      · exact (hnewer'.2 r hr).1
      · exact (holder.high r hr).1

/-! ## Answers -/

/-- Whether some records are enough to answer a request: they hold all that it asks for, or from some
second on all records, of which as many as it wants are at or before its time. -/
def Serves (q : Request) (low : Record → Prop) (rs : List Record) : Prop :=
  (∀ r, low r → q.Admits r → r ∈ rs) ∨
    q.count ≠ 0 ∧ q.count ≤ q.reached rs ∧
      ∃ m, (∀ r ∈ rs, m ≤ r.sec) ∧ ∀ r, low r → m ≤ r.sec → r.time ≤ q.upTo → r ∈ rs

theorem wanted_of_filter_eq {rs rs' : List Record}
    (h : (rs.filter fun r => decide (q.Admits r)) = rs'.filter fun r => decide (q.Admits r)) :
    q.wanted rs = q.wanted rs' := by
  rw [wanted, wanted, h]

/-- Records in order fall into those before a second and those from it on. -/
theorem filter_split {rs : List Record} (h : InOrder rs) (P : Record → Bool) (m : Int) :
    rs.filter P = (rs.filter fun r => P r && decide (r.sec < m)) ++
      rs.filter fun r => P r && decide (m ≤ r.sec) := by
  induction rs with
  | nil => rfl
  | cons r rs ih =>
    obtain ⟨hr, h⟩ := List.pairwise_cons.1 h
    by_cases hm : r.sec < m
    · have hm' : ¬ m ≤ r.sec := by omega
      by_cases hP : P r
      · simp [hP, hm, hm', ih h]
      · simp [hP, ih h]
    · have hall : ∀ x ∈ r :: rs, m ≤ x.sec := by
        intro x hx
        rcases List.mem_cons.1 hx with rfl | hx
        · omega
        · have : r.sec ≤ x.sec := Record.sec_le_of_le (hr x hx)
          omega
      have hnone : ((r :: rs).filter fun r => P r && decide (r.sec < m)) = [] := by
        refine List.filter_eq_nil_iff.2 fun x hx => ?_
        have := hall x hx
        simp only [Bool.and_eq_true, decide_eq_true_iff, not_and]
        omega
      rw [hnone, List.nil_append]
      exact List.filter_congr fun x hx => by rw [decide_eq_true (hall x hx), Bool.and_true]

/-- **Enough records** answer as all records do. -/
theorem Serves.wanted_eq {rs all : List Record} (h : q.Serves (· ∈ all) rs) (hrs : Rising rs)
    (hall : Rising all) (hsub : ∀ r ∈ rs, r ∈ all) : q.wanted rs = q.wanted all := by
  have hwindow : (∀ r ∈ all, q.Admits r → r ∈ rs) → q.wanted rs = q.wanted all := by
    intro h
    refine wanted_of_filter_eq ((hrs.filter _).eq_of_mem_iff (hall.filter _) fun r => ?_)
    rw [List.mem_filter, List.mem_filter, decide_eq_true_iff]
    exact ⟨fun hr => ⟨hsub r hr.1, hr.2⟩, fun hr => ⟨h r hr.1 hr.2, hr.2⟩⟩
  rcases h with h | ⟨hcount, hreached, m, hfloor, hupper⟩
  · exact hwindow h
  by_cases hin : q.seconds = 0 ∨ q.edge < m
  · -- the window excludes none of the records, so the newest that are wanted are among them
    have hadmits : ∀ r : Record, m ≤ r.sec → (q.Admits r ↔ r.time ≤ q.upTo) := by
      intro r hr
      rw [Admits]
      refine ⟨fun h => h.1, fun h => ⟨h, ?_⟩⟩
      exact hin.imp (fun h => ⟨hcount, h⟩) fun h => by omega
    have hupper' : (all.filter fun r => decide (q.Admits r) && decide (m ≤ r.sec)) =
        rs.filter fun r => decide (q.Admits r) := by
      refine (hall.filter _).eq_of_mem_iff (hrs.filter _) fun r => ?_
      rw [List.mem_filter, List.mem_filter, Bool.and_eq_true, decide_eq_true_iff,
        decide_eq_true_iff]
      constructor
      · rintro ⟨hr, hA, hm⟩
        exact ⟨hupper r hr hm hA.1, hA⟩
      · rintro ⟨hr, hA⟩
        exact ⟨hsub r hr, hA, hfloor r hr⟩
    have hlen : q.count ≤ (rs.filter fun r => decide (q.Admits r)).length := by
      refine hreached.trans (Nat.le_of_eq ?_)
      rw [reached, List.countP_eq_length_filter]
      congr 1
      exact List.filter_congr fun r hr => by rw [decide_eq_decide, hadmits r (hfloor r hr)]
    rw [wanted, wanted, if_neg hcount, if_neg hcount, filter_split hall.inOrder _ m, hupper',
      List.reverse_append, List.take_append_of_le_length (by rwa [List.length_reverse])]
  · rw [not_or] at hin
    refine hwindow fun r hr hA => hupper r hr ?_ hA.1
    have := hA.2.resolve_left fun h => hin.1 h.2
    omega

theorem newestFirst_eq {rs : List Record} (h : Rising (Record.oldestFirst rs)) :
    Record.newestFirst rs = (Record.oldestFirst rs).reverse := by
  rw [← List.reverse_eq_iff]
  have hmem : ∀ r, r ∈ (Record.newestFirst rs).reverse ↔ r ∈ Record.oldestFirst rs := fun r => by
    rw [List.mem_reverse, Record.mem_newestFirst, Record.mem_oldestFirst]
  have hnodup : (Record.newestFirst rs).reverse.Nodup :=
    (List.reverse_perm _).nodup_iff.2 ((Record.newestFirst_perm rs).nodup_iff.2
      ((Record.oldestFirst_perm rs).nodup_iff.1 h.nodup))
  refine (Rising.of_inOrder (Record.inOrder_reverse_newestFirst rs) hnodup fun a ha b hb => ?_)
    |>.eq_of_mem_iff h hmem
  exact h.eq_of_time ((hmem a).1 ha) ((hmem b).1 hb)

/-- What a request without a cache makes of what it has read. -/
def answer (q : Request) (rs : List Record) : List Record :=
  let found := (Record.newestFirst rs).filter fun r => decide (r.time ≤ q.upTo)
  if q.count = 0 then found else found.take q.count

theorem answer_eq_wanted {rs : List Record} (h : Rising (Record.oldestFirst rs))
    (hadmits : ∀ r ∈ rs, r.time ≤ q.upTo → q.Admits r) :
    q.answer rs = q.wanted (Record.oldestFirst rs) := by
  have hfound : ((Record.newestFirst rs).filter fun r => decide (r.time ≤ q.upTo)) =
      ((Record.oldestFirst rs).filter fun r => decide (q.Admits r)).reverse := by
    rw [newestFirst_eq h, List.filter_reverse]
    congr 1
    refine List.filter_congr fun r hr => ?_
    rw [decide_eq_decide]
    exact ⟨hadmits r (Record.mem_oldestFirst.1 hr), fun hA => hA.1⟩
  rw [answer, wanted, hfound]

theorem rising_of_spans {after upTo m : Int} {rs : List Record}
    (h : Spans low high after upTo m rs) (ho : InOrder rs)
    (htime : ∀ a b, high a → high b → a.time = b.time → a = b) : Rising rs :=
  Rising.of_inOrder ho h.nodup fun a ha b hb => htime a b (h.high a ha).1 (h.high b hb).1

/-- A range that holds what a request admits, or as many records as it asks for, is enough. -/
theorem serves_of_spans {after upTo m : Int} {rs : List Record}
    (h : Spans low high after upTo m rs) (hbelow : ∀ r, low r → r.time ≤ q.upTo → r.sec ≤ upTo)
    (hadmits : ∀ r, low r → q.Admits r → after < r.sec)
    (hdone : m ≤ after + 1 ∨ q.count ≠ 0 ∧ q.count ≤ q.reached rs) : q.Serves low rs := by
  by_cases hm : m ≤ after + 1
  · refine Or.inl fun r hr hA => ?_
    have hafter := hadmits r hr hA
    exact h.complete r hr (by omega) hafter (hbelow r hr hA.1)
  · obtain ⟨hcount, hreached⟩ := hdone.resolve_left hm
    exact Or.inr ⟨hcount, hreached, m, h.floor, fun r hr hmr hle =>
      h.complete r hr hmr (by omega) (hbelow r hr hle)⟩

/-- Whether 64 bits hold the last second before the window and the first one in it. -/
def InBounds (q : Request) : Prop :=
  Fits64 (q.upTo.sec - q.seconds) ∧ Fits64 (q.upTo.sec - q.seconds + 1)

instance (q : Request) : Decidable q.InBounds := inferInstanceAs (Decidable (_ ∧ _))

theorem InBounds.edge_eq (h : q.InBounds) : q.edge = q.upTo.sec - q.seconds := wrap_eq h.1

/-- **A request without a cache** is answered with what is wanted of enough records. -/
theorem Truthful.yields_direct (hA : q.Truthful low high A) (hpos : ∀ r, high r → 1 ≤ r.sec)
    (hbounds : 1 ≤ q.upTo.sec → q.InBounds) (hcountable : ∀ r, low r → q.count < maxCount)
    (htime : ∀ a b, high a → high b → a.time = b.time → a = b) (hlow : ∀ r, low r → high r) :
    q.direct.Yields A fun rs => ∃ all, rs = q.wanted all ∧ Rising all ∧ (∀ r ∈ all, high r) ∧
      q.Serves low all := by
  have hresult : ∀ {after m : Int} {rs : List Record},
      Spans low high after q.upTo.sec m rs →
      (∀ r : Record, 1 ≤ r.sec → r.time ≤ q.upTo → (q.Admits r ↔ after < r.sec)) →
      (m ≤ after + 1 ∨ q.count ≠ 0 ∧ q.count ≤ q.reached rs) →
      ∃ all, q.answer rs = q.wanted all ∧ Rising all ∧ (∀ r ∈ all, high r) ∧ q.Serves low all := by
    intro after m rs h hadmits hdone
    have hperm := Record.oldestFirst_perm rs
    have hrising := rising_of_spans (h.perm hperm) (Record.inOrder_oldestFirst rs) htime
    refine ⟨Record.oldestFirst rs, answer_eq_wanted hrising fun r hr hle => ?_, hrising,
      fun r hr => (h.high r (Record.mem_oldestFirst.1 hr)).1,
      serves_of_spans (h.perm hperm) (fun r _ hle => Timestamp.sec_le_of_le hle)
        (fun r hr hA => (hadmits r (hpos r (hlow r hr)) hA.1).1 hA) ?_⟩
    · obtain ⟨h1, h2, -⟩ := h.high r hr
      exact (hadmits r (hpos r h1) hle).2 h2
    · rw [reached, hperm.countP_eq]
      exact hdone
  rw [direct]
  split
  · next hcount =>
    refine Reading.Yields.bind (Request.yields_readRange fun records hrecords => ?_)
    have hadmits : ∀ r : Record, 1 ≤ r.sec → r.time ≤ q.upTo →
        (q.Admits r ↔ q.windowStart < r.sec) := by
      intro r hr hle
      rw [Admits, windowStart]
      simp only [hle, hcount, ne_eq, not_true_eq_false, false_and, false_or, true_and]
      omega
    obtain ⟨all, heq, hall⟩ := hresult (hA.byTime hrecords) hadmits (Or.inl (Int.le_refl _))
    exact ⟨all, by simpa only [answer, if_pos hcount] using heq, hall⟩
  · next hcount =>
    refine Reading.Yields.bind ((hA.yields_countBack _ hcountable q.upTo.sec).mono (fun _ _ h => h)
      fun records hback => ?_)
    obtain ⟨m, -, hspan, hdone⟩ := hback
    have hadmits : ∀ r : Record, 1 ≤ r.sec → r.time ≤ q.upTo → (q.Admits r ↔
        exclusive (if q.seconds = 0 then 0 else wrap (q.upTo.sec - q.seconds + 1)) < r.sec) := by
      intro r hr hle
      have hbounds' := hbounds (Int.le_trans hr (Timestamp.sec_le_of_le hle))
      rw [Admits, hbounds'.edge_eq, wrap_eq hbounds'.2, exclusive]
      simp only [hle, hcount, ne_eq, not_false_eq_true, true_and]
      split <;> split <;> omega
    obtain ⟨all, heq, hall⟩ := hresult hspan hadmits (hdone.imp (fun h => h) fun h => ⟨hcount, h⟩)
    exact ⟨all, by simpa only [answer, if_neg hcount] using heq, hall⟩

end Request

end HistoryCache
