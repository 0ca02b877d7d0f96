import HistoryCache.Proofs.Interleaving
import HistoryCache.Proofs.Search
import Mathlib.Data.List.Pairwise

/-!
# What the store holds

The store has one record of an item, a kind and a time (`Store.Has`), and its records of an item and
kind rise strictly with time (`rising_recordsOf`).  A store is `Regular` if the times of its records
are ones that are read at all, and if whatever order the records of an answer come in, they are the
records that were found.  Then the ranges of questions are ranges of seconds.

`Plain` is how the store answers by itself.
-/

namespace HistoryCache

/-- A time that is read: its second is positive and not after the horizon, and its nanoseconds are
less than a second. -/
structure Timestamp.Regular (t : Timestamp) : Prop where
  pos : 1 ≤ t.sec
  le : t.sec ≤ Timestamp.horizon
  ns : 0 ≤ t.ns ∧ t.ns < 1000000000

/-- Records of different times, in the order of time. -/
def Rising (rs : List Record) : Prop := rs.Pairwise fun a b => a.time < b.time

theorem Timestamp.lt_irrefl (t : Timestamp) : ¬ t < t := by
  rw [Timestamp.lt_def]
  omega

theorem Timestamp.le_of_lt {a b : Timestamp} (h : a < b) : a ≤ b := by
  rw [Timestamp.lt_def] at h
  rw [Timestamp.le_def]
  omega

namespace Rising

variable {rs rs' : List Record}

theorem inOrder (h : Rising rs) : InOrder rs := h.imp Timestamp.le_of_lt

theorem nodup (h : Rising rs) : rs.Nodup := by
  refine h.imp fun hab heq => ?_
  subst heq
  exact Timestamp.lt_irrefl _ hab

theorem sublist (h : Rising rs) (hsub : rs'.Sublist rs) : Rising rs' := List.Pairwise.sublist hsub h

theorem filter (h : Rising rs) (P : Record → Bool) : Rising (rs.filter P) :=
  h.sublist List.filter_sublist

theorem times_ne (h : Rising rs) : rs.Pairwise fun a b => a.time ≠ b.time :=
  h.imp fun {a b} hab htime => by
    rw [htime] at hab
    exact Timestamp.lt_irrefl _ hab

theorem eq_of_time (h : Rising rs) {a b : Record} (ha : a ∈ rs) (hb : b ∈ rs)
    (heq : a.time = b.time) : a = b := by
  by_contra hne
  have hsymm : Std.Symm fun a b : Record => a.time ≠ b.time := ⟨fun _ _ h => h.symm⟩
  exact h.times_ne.forall ha hb hne heq

/-- Records of different times are known by their order. -/
theorem eq_of_mem_iff (h : Rising rs) (h' : Rising rs') (hmem : ∀ r, r ∈ rs ↔ r ∈ rs') :
    rs = rs' := by
  have hperm : rs.Perm rs' := (List.perm_ext_iff_of_nodup h.nodup h'.nodup).2 hmem
  refine hperm.eq_of_pairwise (fun a b ha hb hab hba => ?_) h.inOrder h'.inOrder
  exact h.eq_of_time ha ((hmem b).2 hb) (Timestamp.le_antisymm hab hba)

/-- Records in order, no two of one time, rise strictly. -/
theorem of_times_ne (h : InOrder rs) (hne : rs.Pairwise fun a b => a.time ≠ b.time) : Rising rs := by
  refine (List.Pairwise.and h hne).imp fun {a b} hab => ?_
  rw [Timestamp.lt_iff_not_le]
  exact fun hba => hab.2 (Timestamp.le_antisymm hab.1 hba)

theorem of_inOrder (h : InOrder rs) (hnodup : rs.Nodup)
    (htime : ∀ a ∈ rs, ∀ b ∈ rs, a.time = b.time → a = b) : Rising rs :=
  of_times_ne h (List.Pairwise.imp_of_mem (fun {a b} ha hb hne heq => hne (htime a ha b hb heq)) hnodup)

end Rising

namespace Series

theorem rising_records (s : Series) : Rising s.records := by
  rw [Rising, records, List.pairwise_map]
  refine (Std.ExtTreeMap.ordered_keys_toList (t := s)).imp fun {a b} hab => ?_
  rw [Timestamp.lt_iff_not_le, ← Timestamp.isLE_compare, Std.OrientedCmp.gt_of_lt hab]
  decide

theorem mem_records {s : Series} {r : Record} : r ∈ s.records ↔ s[r.time]? = some r.value := by
  rw [records, List.mem_map, ← Std.ExtTreeMap.mem_toList_iff_getElem?_eq_some]
  constructor
  · rintro ⟨⟨t, v⟩, hmem, rfl⟩
    exact hmem
  · exact fun hmem => ⟨(r.time, r.value), hmem, rfl⟩

theorem mem_records_insert {s : Series} {r w : Record} :
    r ∈ Series.records (s.insert w.time w.value) ↔ r = w ∨ r ∈ s.records ∧ r.time ≠ w.time := by
  rw [mem_records, mem_records, Std.ExtTreeMap.getElem?_insert]
  cases r with
  | mk t v =>
    cases w with
    | mk t' v' =>
      by_cases htime : t = t'
      · subst htime
        simp [eq_comm]
      · simp [htime, Ne.symm htime]

/-- The records of a range are those of its seconds, if their nanoseconds are less than a second. -/
theorem inRange_iff {after upTo : Int} {t : Timestamp} (hns : 0 ≤ t.ns ∧ t.ns < 1000000000) :
    InRange after upTo t ↔ after < t.sec ∧ t.sec ≤ upTo := by
  rw [InRange, Timestamp.le_def, Timestamp.lt_def]
  show after < upTo ∧ (after + 1 < t.sec ∨ after + 1 = t.sec ∧ 0 ≤ t.ns) ∧
    (t.sec < upTo + 1 ∨ t.sec = upTo + 1 ∧ t.ns < 0) ↔ _
  omega

end Series

namespace Record

/-- The records of the seconds after `after` and up to `upTo`. -/
def within (rs : List Record) (after upTo : Int) : List Record :=
  rs.filter fun r => decide (after < r.sec ∧ r.sec ≤ upTo)

theorem mem_within {rs : List Record} {after upTo : Int} {r : Record} :
    r ∈ within rs after upTo ↔ r ∈ rs ∧ after < r.sec ∧ r.sec ≤ upTo := by
  rw [within, List.mem_filter, decide_eq_true_iff]

end Record

/-- The answers of a store that holds the records `stored`: those of the range in any order, and by count
as many of them as are wanted, if there are so many.  Of what is left out no record is of a later second
than one that is not. -/
def StoreRead.Contract (stored : ItemId → Kind → List Record) : StoreRead → List Record → Prop
  | byTime item kind after upTo, answer => answer.Perm (Record.within (stored item kind) after upTo)
  | byCount item kind after count upTo, answer =>
    answer.length = min count (Record.within (stored item kind) after upTo).length ∧
      ∃ omitted, (answer ++ omitted).Perm (Record.within (stored item kind) after upTo) ∧
        ∀ r ∈ omitted, ∀ x ∈ answer, r.sec ≤ x.sec

namespace Store

/-- The records of an item and kind, from the oldest to the newest. -/
def recordsOf (s : Store) (id : ItemId) (kind : Kind) : List Record := (s.seriesOf id kind).records

/-- Whether the store has a record of an item. -/
def Has (s : Store) (id : ItemId) (r : Record) : Prop := r ∈ s.recordsOf id r.value.kind

/-- A store as it is used: records are kept under their kinds and have regular times, and an answer
is what was found in some order. -/
structure Regular (s : Store) : Prop where
  filed : ∀ id kind r, r ∈ s.recordsOf id kind → r.value.kind = kind
  times : ∀ id kind r, r ∈ s.recordsOf id kind → r.time.Regular
  arranged : ∀ n rs, (s.arrange n rs).Perm rs

/-- What a regular store is but for the horizon: the seconds of its records are positive and have no
bound. -/
structure Lawful (s : Store) : Prop where
  pos : ∀ id kind r, r ∈ s.recordsOf id kind → 1 ≤ r.sec
  ns : ∀ id kind r, r ∈ s.recordsOf id kind → 0 ≤ r.time.ns ∧ r.time.ns < 1000000000
  arranged : ∀ n rs, (s.arrange n rs).Perm rs

theorem Regular.lawful {s : Store} (h : s.Regular) : s.Lawful where
  pos id kind r hr := (h.times id kind r hr).pos
  ns id kind r hr := (h.times id kind r hr).ns
  arranged := h.arranged

theorem rising_recordsOf (s : Store) (id : ItemId) (kind : Kind) : Rising (s.recordsOf id kind) :=
  Series.rising_records _

theorem recordsOf_congr {s t : Store} (h : t.series = s.series) (id : ItemId) (kind : Kind) :
    t.recordsOf id kind = s.recordsOf id kind := by
  rw [recordsOf, recordsOf, seriesOf, seriesOf, h]

theorem Regular.congr {s t : Store} (h : s.Regular) (hseries : t.series = s.series)
    (harrange : t.arrange = s.arrange) : t.Regular where
  filed id kind r hr := h.filed id kind r (recordsOf_congr hseries id kind ▸ hr)
  times id kind r hr := h.times id kind r (recordsOf_congr hseries id kind ▸ hr)
  arranged := by
    rw [harrange]
    exact h.arranged

theorem Lawful.congr {s t : Store} (h : s.Lawful) (hseries : t.series = s.series)
    (harrange : t.arrange = s.arrange) : t.Lawful where
  pos id kind r hr := h.pos id kind r (recordsOf_congr hseries id kind ▸ hr)
  ns id kind r hr := h.ns id kind r (recordsOf_congr hseries id kind ▸ hr)
  arranged := by
    rw [harrange]
    exact h.arranged

theorem Regular.mem_recordsOf {s : Store} (h : s.Regular) {id : ItemId} {kind : Kind} {r : Record} :
    r ∈ s.recordsOf id kind ↔ s.Has id r ∧ r.value.kind = kind := by
  constructor
  · intro hr
    have hkind := h.filed id kind r hr
    exact ⟨by rw [Has, hkind]; exact hr, hkind⟩
  · rintro ⟨hr, rfl⟩
    exact hr

/-! ## Writes -/

theorem seriesOf_put (s : Store) (w : ItemRecord) (id : ItemId) (kind : Kind) :
    (s.put w).seriesOf id kind =
      if w.item = id ∧ w.record.value.kind = kind then
        (s.seriesOf id kind).insert w.record.time w.record.value
      else s.seriesOf id kind := by
  rw [put, seriesOf]
  simp only []
  rw [Std.ExtTreeMap.getD_insert]
  by_cases h : w.item = id ∧ w.record.value.kind = kind
  · obtain ⟨rfl, rfl⟩ := h
    simp
  · rw [if_neg, if_neg h]
    · rfl
    · intro heq
      have := Std.LawfulEqOrd.eq_of_compare heq
      rw [SeriesKey.mk.injEq] at this
      exact h this

/-- A record of which the store has none of the same kind and time. -/
def Fresh (s : Store) (w : ItemRecord) : Prop :=
  ∀ r, s.Has w.item r → r.value.kind = w.record.value.kind → r.time ≠ w.record.time

theorem mem_recordsOf_put {s : Store} {w : ItemRecord} {id : ItemId} {kind : Kind} {r : Record} :
    r ∈ (s.put w).recordsOf id kind ↔
      if w.item = id ∧ w.record.value.kind = kind then
        r = w.record ∨ r ∈ s.recordsOf id kind ∧ r.time ≠ w.record.time
      else r ∈ s.recordsOf id kind := by
  rw [recordsOf, seriesOf_put]
  split
  · exact Series.mem_records_insert
  · rfl

/-- A record is fresh if its series has nothing of its time. -/
theorem fresh_of_getElem? {s : Store} {w : ItemRecord}
    (h : (s.seriesOf w.item w.record.value.kind)[w.record.time]? = none) : s.Fresh w := by
  intro r hr hkind htime
  rw [Has, hkind, recordsOf, Series.mem_records, htime, h] at hr
  cases hr

theorem recordsOf_put_of_ne {s : Store} {w : ItemRecord} {id : ItemId} {kind : Kind}
    (h : ¬ (w.item = id ∧ w.record.value.kind = kind)) :
    (s.put w).recordsOf id kind = s.recordsOf id kind := by
  rw [recordsOf, seriesOf_put, if_neg h]
  rfl

theorem Fresh.has_put {s : Store} {w : ItemRecord} (h : s.Fresh w) {id : ItemId} {r : Record} :
    (s.put w).Has id r ↔ s.Has id r ∨ (⟨id, r⟩ : ItemRecord) = w := by
  cases w with
  | mk item record =>
    rw [Has, mem_recordsOf_put, ItemRecord.mk.injEq]
    by_cases hkey : item = id ∧ record.value.kind = r.value.kind
    · obtain ⟨rfl, hkind⟩ := hkey
      rw [if_pos ⟨rfl, hkind⟩]
      constructor
      · rintro (rfl | ⟨hr, -⟩)
        · exact Or.inr ⟨rfl, rfl⟩
        · exact Or.inl hr
      · rintro (hr | ⟨-, rfl⟩)
        · exact Or.inr ⟨hr, h r hr hkind.symm⟩
        · exact Or.inl rfl
    · rw [if_neg hkey]
      refine ⟨Or.inl, ?_⟩
      rintro (hr | ⟨rfl, rfl⟩)
      · exact hr
      · exact absurd ⟨rfl, rfl⟩ hkey

theorem of_mem_put {s : Store} {w : ItemRecord} {id : ItemId} {kind : Kind} {r : Record}
    (hr : r ∈ (s.put w).recordsOf id kind) :
    r = w.record ∧ w.record.value.kind = kind ∨ r ∈ s.recordsOf id kind := by
  rw [mem_recordsOf_put] at hr
  split at hr
  · next hkey => exact hr.imp (⟨·, hkey.2⟩) And.left
  · exact Or.inr hr

theorem Regular.put {s : Store} (h : s.Regular) {w : ItemRecord} (hw : w.record.time.Regular) :
    (s.put w).Regular where
  filed id kind r hr := by
    rcases of_mem_put hr with ⟨rfl, hkind⟩ | hr
    · exact hkind
    · exact h.filed id kind r hr
  times id kind r hr := by
    rcases of_mem_put hr with ⟨rfl, -⟩ | hr
    · exact hw
    · exact h.times id kind r hr
  arranged := h.arranged

theorem Lawful.put {s : Store} (h : s.Lawful) {w : ItemRecord} (hpos : 1 ≤ w.record.sec)
    (hns : 0 ≤ w.record.time.ns ∧ w.record.time.ns < 1000000000) : (s.put w).Lawful where
  pos id kind r hr := by
    rcases of_mem_put hr with ⟨rfl, -⟩ | hr
    · exact hpos
    · exact h.pos id kind r hr
  ns id kind r hr := by
    rcases of_mem_put hr with ⟨rfl, -⟩ | hr
    · exact hns
    · exact h.ns id kind r hr
  arranged := h.arranged

theorem Lawful.insert {s : Store} (h : s.Lawful) (id : ItemId) {records : List Record}
    (hpos : ∀ r ∈ records, 1 ≤ r.sec)
    (hns : ∀ r ∈ records, 0 ≤ r.time.ns ∧ r.time.ns < 1000000000) : (s.insert id records).Lawful := by
  rw [Store.insert]
  induction records generalizing s with
  | nil => exact h
  | cons r records ih =>
    have hput : (s.put ⟨id, r⟩).Lawful :=
      h.put (hpos r List.mem_cons_self) (hns r List.mem_cons_self)
    exact ih hput (fun x hx => hpos x (List.mem_cons_of_mem r hx))
      fun x hx => hns x (List.mem_cons_of_mem r hx)

theorem Fresh.not_mem_recordsOf {s : Store} {w : ItemRecord} (h : s.Fresh w) (hs : s.Regular) :
    w.record ∉ s.recordsOf w.item w.record.value.kind := by
  intro hin
  exact h _ (hs.mem_recordsOf.1 hin).1 rfl rfl

theorem Fresh.mem_put_iff {s : Store} {w : ItemRecord} (h : s.Fresh w) (hs : s.Regular) (r : Record) :
    r ∈ (s.put w).recordsOf w.item w.record.value.kind ↔
      r ∈ s.recordsOf w.item w.record.value.kind ∨ r = w.record := by
  rw [mem_recordsOf_put, if_pos ⟨rfl, rfl⟩, or_comm, and_iff_left_of_imp]
  intro hr
  obtain ⟨hhas, hkind⟩ := hs.mem_recordsOf.1 hr
  exact h r hhas hkind

/-- Records that may be written together: their times are regular, and neither the store nor another
of them has the kind and time of one. -/
structure AllFresh (s : Store) (writes : List ItemRecord) : Prop where
  fresh : ∀ w ∈ writes, s.Fresh w
  distinct : writes.Pairwise fun v w => ¬ (v.item = w.item ∧
    v.record.value.kind = w.record.value.kind ∧ v.record.time = w.record.time)
  regular : ∀ w ∈ writes, w.record.time.Regular

theorem AllFresh.singleton {s : Store} {w : ItemRecord} (h : s.Fresh w)
    (hregular : w.record.time.Regular) : s.AllFresh [w] where
  fresh _ hv := List.mem_singleton.1 hv ▸ h
  distinct := List.pairwise_singleton _ _
  regular _ hv := List.mem_singleton.1 hv ▸ hregular

theorem AllFresh.tail {s : Store} {w : ItemRecord} {writes : List ItemRecord}
    (h : s.AllFresh (w :: writes)) : (s.put w).AllFresh writes where
  fresh v hv r hr hkind := by
    rcases (h.fresh w List.mem_cons_self).has_put.1 hr with hr | rfl
    · exact h.fresh v (List.mem_cons_of_mem w hv) r hr hkind
    · exact fun htime => (List.pairwise_cons.1 h.distinct).1 v hv ⟨rfl, hkind, htime⟩
  distinct := (List.pairwise_cons.1 h.distinct).2
  regular v hv := h.regular v (List.mem_cons_of_mem w hv)

theorem AllFresh.has_puts {s : Store} {writes : List ItemRecord} (h : s.AllFresh writes)
    {id : ItemId} {r : Record} :
    (writes.foldl put s).Has id r ↔ s.Has id r ∨ (⟨id, r⟩ : ItemRecord) ∈ writes := by
  induction writes generalizing s with
  | nil => simp
  | cons w writes ih =>
    rw [List.foldl_cons, ih h.tail, (h.fresh w List.mem_cons_self).has_put, List.mem_cons,
      or_assoc]

theorem AllFresh.regular_puts {s : Store} {writes : List ItemRecord} (h : s.AllFresh writes)
    (hs : s.Regular) : (writes.foldl put s).Regular := by
  induction writes generalizing s with
  | nil => exact hs
  | cons w writes ih => exact ih h.tail (hs.put (h.regular w List.mem_cons_self))

/-- A store that has nothing yet. -/
theorem regular_empty {arrange : Nat → List Record → List Record}
    (h : ∀ n rs, (arrange n rs).Perm rs) : ({ arrange := arrange } : Store).Regular := by
  have hnone : ∀ id kind, ({ arrange := arrange } : Store).recordsOf id kind = [] := fun id kind => by
    rw [recordsOf, seriesOf, Std.ExtTreeMap.getD_empty, Series.records]
    rfl
  refine ⟨fun id kind r hr => ?_, fun id kind r hr => ?_, h⟩ <;>
    · rw [hnone] at hr
      exact absurd hr List.not_mem_nil

/-! ## Answers -/

theorem series_read (s : Store) (question : StoreRead) : (s.read question).2.series = s.series := by
  rw [read]
  split <;> rfl

theorem arrange_read (s : Store) (question : StoreRead) :
    (s.read question).2.arrange = s.arrange := by
  rw [read]
  split <;> rfl

/-- An answer is what was found in some order. -/
theorem Lawful.perm_find {s : Store} (h : s.Lawful) {question : StoreRead}
    {records : List Record} (hread : (s.read question).1 = .ok records) :
    records.Perm (s.find question) := by
  rw [read] at hread
  split at hread
  · cases hread
  · cases hread
    exact h.arranged _ _

theorem Lawful.range_eq {s : Store} (h : s.Lawful) (id : ItemId) (kind : Kind) (after upTo : Int) :
    (s.seriesOf id kind).range after upTo = Record.within (s.recordsOf id kind) after upTo := by
  rw [Series.range]
  refine List.filter_congr fun r hr => ?_
  rw [decide_eq_decide, Series.inRange_iff (h.ns id kind r hr)]

/-- **An answer** has the records of the range, and by count the newest of them. -/
theorem Lawful.contract {s : Store} (h : s.Lawful) {question : StoreRead} {records : List Record}
    (hread : (s.read question).1 = .ok records) : question.Contract s.recordsOf records := by
  have hperm := h.perm_find hread
  cases question with
  | byTime id kind after upTo =>
    rw [find, h.range_eq] at hperm
    exact hperm
  | byCount id kind after count upTo =>
    rw [find, h.range_eq] at hperm
    have hdown := List.pairwise_reverse.2 ((s.rising_recordsOf id kind).filter
      fun r => decide (after < r.sec ∧ r.sec ≤ upTo)).inOrder
    rw [← Record.within] at hdown
    refine ⟨?_, (Record.within (s.recordsOf id kind) after upTo).reverse.drop count, ?_, ?_⟩
    · rw [hperm.length_eq, List.length_take, List.length_reverse]
    · refine (hperm.append_right _).trans ?_
      rw [List.take_append_drop]
      exact List.reverse_perm _
    · intro r hr x hx
      exact Record.sec_le_of_le (hdown.rel_of_mem_take_of_mem_drop (hperm.mem_iff.1 hx) hr)

/-- An answer by time has the records of the range, each of them once. -/
theorem Lawful.answer_byTime {s : Store} (h : s.Lawful) {id : ItemId} {kind : Kind}
    {after upTo : Int} {records : List Record}
    (hread : (s.read (.byTime id kind after upTo)).1 = .ok records) :
    records.Nodup ∧
      ∀ r, r ∈ records ↔ r ∈ s.recordsOf id kind ∧ after < r.sec ∧ r.sec ≤ upTo := by
  have hperm : records.Perm (Record.within (s.recordsOf id kind) after upTo) := h.contract hread
  refine ⟨hperm.nodup_iff.2 ((s.rising_recordsOf id kind).filter _).nodup, fun r => ?_⟩
  rw [hperm.mem_iff, Record.mem_within]

/-- An answer by count has records of the range, each of them once, and leaves out only earlier ones
when it is full. -/
theorem Lawful.answer_byCount {s : Store} (h : s.Lawful) {id : ItemId} {kind : Kind}
    {after upTo : Int} {count : Nat} {records : List Record}
    (hread : (s.read (.byCount id kind after count upTo)).1 = .ok records) :
    records.Nodup ∧ (∀ r ∈ records, r ∈ s.recordsOf id kind ∧ after < r.sec ∧ r.sec ≤ upTo) ∧
      ∀ r ∈ s.recordsOf id kind, after < r.sec → r.sec ≤ upTo →
        r ∈ records ∨ count ≤ records.length ∧ ∀ x ∈ records, r.sec ≤ x.sec := by
  obtain ⟨hlen, omitted, hperm, hleft⟩ := h.contract hread
  have hnodup := hperm.nodup_iff.2 ((s.rising_recordsOf id kind).filter _).nodup
  refine ⟨(List.nodup_append.1 hnodup).1, fun r hr => ?_, fun r hr h1 h2 => ?_⟩
  · exact Record.mem_within.1 (hperm.mem_iff.1 (List.mem_append_left omitted hr))
  · have hmem := hperm.mem_iff.2 (Record.mem_within.2 ⟨hr, h1, h2⟩)
    refine (List.mem_append.1 hmem).imp (fun h => h) fun homitted => ⟨?_, hleft r homitted⟩
    have hsome := List.length_pos_of_mem homitted
    have hall := hperm.length_eq
    rw [List.length_append] at hall
    omega

end Store

/-- The store answers a question, and nothing else happens. -/
def Plain : Answering := fun question s answer t =>
  (s.store.read question).1 = answer ∧ { s with store := (s.store.read question).2 } = t

end HistoryCache
