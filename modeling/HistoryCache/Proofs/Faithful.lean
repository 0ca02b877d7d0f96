import HistoryCache.Proofs.Operations
import HistoryCache.Proofs.Ranges

/-!
# Cached records are records of the store

As long as no record is written twice, every cached history is a rising list of records that the
store has (`faithful`).  This holds whoever interferes; it does not say that nothing is missing.

* `truthful_asked`: what the questions of a request are answered with, while the store grows.
* `faithful_ingest`, `extends_faithful`: the two ways in which records enter a history.
-/

namespace HistoryCache

/-- The store has at least what it had. -/
def Store.Grows (s t : Store) : Prop :=
  ∀ id kind r, r ∈ s.recordsOf id kind → r ∈ t.recordsOf id kind

namespace Store.Grows

variable {s t u : Store}

theorem of_series (h : t.series = s.series) : s.Grows t := fun id kind r hr => by
  rwa [Store.recordsOf_congr h]

theorem trans (h : s.Grows t) (k : t.Grows u) : s.Grows u :=
  fun id kind r hr => k id kind r (h id kind r hr)

theorem put {w : ItemRecord} (hw : s.Fresh w) (hs : s.Regular) : s.Grows (s.put w) := by
  intro id kind r hr
  rw [Store.mem_recordsOf_put]
  split
  · next hkey =>
    obtain ⟨rfl, rfl⟩ := hkey
    obtain ⟨hhas, hkind⟩ := hs.mem_recordsOf.1 hr
    exact Or.inr ⟨hr, hw r hhas hkind⟩
  · exact hr

theorem puts {writes : List ItemRecord} (hw : s.AllFresh writes) (hs : s.Regular) :
    s.Grows (writes.foldl Store.put s) := by
  induction writes generalizing s with
  | nil => exact .of_series rfl
  | cons w writes ih =>
    exact (put (hw.fresh w List.mem_cons_self) hs).trans
      (ih hw.tail (hs.put (hw.regular w List.mem_cons_self)))

end Store.Grows

/-! ## Answers of a growing store -/

section Answers

variable {I : Service → Prop} {R : Service → Service → Prop}

/-- **Questions** to a store that grows are answered truthfully: what the store had at first it has
at every question, and what it has at a question it has in the end. -/
theorem truthful_asked (hlawful : ∀ s, I s → s.store.Lawful)
    (hgrows : ∀ s t, R s t → s.store.Grows t.store) (q : Request) (s t : Service) :
    q.Truthful (· ∈ s.store.recordsOf q.item q.kind) (· ∈ t.store.recordsOf q.item q.kind)
      (Asked Plain I R s t) where
  byTime {after upTo records} := by
    rintro ⟨v, u, hsv, hv, ⟨hread, rfl⟩, hut⟩
    obtain ⟨hnodup, hmem⟩ := (hlawful v hv).answer_byTime hread
    have hvt : v.store.Grows t.store :=
      (Store.Grows.of_series (Store.series_read v.store _)).trans (hgrows _ _ hut)
    refine ⟨hnodup, fun r hr => ?_, fun r hr => ?_, fun r hr h1 h2 h3 => ?_⟩
    · obtain ⟨hr, hin⟩ := (hmem r).1 hr
      exact ⟨hvt _ _ r hr, hin⟩
    · exact ((hmem r).1 hr).2.1
    · exact (hmem r).2 ⟨hgrows _ _ hsv _ _ r hr, h2, h3⟩
  byCount {after upTo count records} := by
    rintro ⟨v, u, hsv, hv, ⟨hread, rfl⟩, hut⟩
    obtain ⟨hnodup, hmem, hall⟩ := (hlawful v hv).answer_byCount hread
    have hvt : v.store.Grows t.store :=
      (Store.Grows.of_series (Store.series_read v.store _)).trans (hgrows _ _ hut)
    refine ⟨hnodup, fun r hr => ?_, fun r hr => hall r (hgrows _ _ hsv _ _ r hr)⟩
    obtain ⟨hr, hin⟩ := hmem r hr
    exact ⟨hvt _ _ r hr, hin⟩
  limited {after upTo count records} := by
    rintro ⟨v, u, -, hv, ⟨hread, -⟩, -⟩
    obtain ⟨hlen, -⟩ := (hlawful v hv).contract hread
    exact hlen.trans_le (Nat.min_le_left _ _)

end Answers

/-! ## Faithful histories -/

/-- The records rise strictly, and the store has them. -/
def faithful (s : Store) : Contents := fun id kind rs => Rising rs ∧ ∀ r ∈ rs, r ∈ s.recordsOf id kind

theorem thins_faithful (s : Store) : Thins (faithful s) where
  nil _ _ := ⟨List.Pairwise.nil, fun _ hr => absurd hr List.not_mem_nil⟩
  sublist h hsub := ⟨h.1.sublist hsub, fun r hr => h.2 r (hsub.subset hr)⟩

theorem faithful_mono {s t : Store} (h : s.Grows t) {id : ItemId} {kind : Kind} {rs : List Record}
    (hrs : faithful s id kind rs) : faithful t id kind rs :=
  ⟨hrs.1, fun r hr => h id kind r (hrs.2 r hr)⟩

/-- A record that was just written takes its place among others. -/
theorem faithful_placed {s : Store} {w : ItemRecord} (hs : s.Regular) (hw : s.Fresh w)
    {rs : List Record} (hrs : faithful s w.item w.record.value.kind rs) :
    faithful (s.put w) w.item w.record.value.kind (Cache.placed w.record rs) := by
  have hmem : ∀ r ∈ Cache.placed w.record rs,
      r ∈ (s.put w).recordsOf w.item w.record.value.kind := by
    intro r hr
    rcases Cache.mem_placed.1 hr with hr | rfl
    · exact Store.Grows.put hw hs _ _ r (hrs.2 r hr)
    · rw [Store.mem_recordsOf_put, if_pos ⟨rfl, rfl⟩]
      exact Or.inl rfl
  have hnew : w.record ∉ rs := fun hin => by
    obtain ⟨hhas, hkind⟩ := hs.mem_recordsOf.1 (hrs.2 _ hin)
    exact hw _ hhas hkind rfl
  refine ⟨Rising.of_inOrder (hrs.1.inOrder.placed w.record) ?_ fun a ha b hb => ?_, hmem⟩
  · exact (Cache.perm_placed w.record rs).nodup_iff.2 (List.nodup_cons.2 ⟨hnew, hrs.1.nodup⟩)
  · exact (Store.rising_recordsOf _ _ _).eq_of_time (hmem a ha) (hmem b hb)

theorem faithful_ingestOne {s : Store} {c : Cache} {w : ItemRecord} (hs : s.Regular) (hw : s.Fresh w)
    (h : c.Sound (faithful s)) (now expireBefore : Int) :
    (c.ingestOne now expireBefore w).Sound (faithful (s.put w)) :=
  h.ingestOne (thins_faithful _) expireBefore (faithful_mono (Store.Grows.put hw hs))
    (faithful_placed hs hw)

/-- **Written records** leave the cached histories faithful. -/
theorem faithful_ingest {s : Store} {c : Cache} {writes : List ItemRecord} (hs : s.Regular)
    (hw : s.AllFresh writes) (h : c.Sound (faithful s)) (now : Int) :
    (c.ingest now writes).Sound (faithful (writes.foldl Store.put s)) := by
  rw [Cache.ingest]
  generalize c.expireBefore now = expireBefore
  induction writes generalizing s c with
  | nil => exact h
  | cons w writes ih =>
    exact ih (hs.put (hw.regular w List.mem_cons_self)) hw.tail
      (faithful_ingestOne hs (hw.fresh w List.mem_cons_self) h now expireBefore)

/-- Records of seconds below a history, put below it. -/
theorem rising_below_append {h : History} {rs : List Record} (hrs : Rising rs)
    (hh : Rising h.records) : Rising (Cache.below h rs ++ h.records) := by
  refine List.pairwise_append.2 ⟨hrs.filter _, hh, fun a ha b hb => ?_⟩
  have ha := (List.mem_filter.1 ha).2
  cases hrecords : h.records with
  | nil =>
    rw [hrecords] at hb
    exact absurd hb List.not_mem_nil
  | cons oldest rest =>
    rw [hrecords, List.head?_cons, Option.all_some, decide_eq_true_iff] at ha
    have hle : oldest.sec ≤ b.sec := by
      rw [hrecords] at hb hh
      rcases List.mem_cons.1 hb with rfl | hb
      · exact Int.le_refl _
      · exact Record.sec_le_of_le (Timestamp.le_of_lt ((List.pairwise_cons.1 hh).1 b hb))
    exact Or.inl (Int.lt_of_lt_of_le ha hle)

section Requests

variable {I : Service → Prop} {R : Service → Service → Prop}

/-- The item that a reading was for is of the kind that was asked for. -/
theorem kind_of_fill {answering : Answering}
    (hholds : ∀ s t, R s t → Cache.Holds none (fun _ _ => False) s.cache t.cache) {q : Request}
    {s t : Service} {fill : Fill} {c : Cache} {result : Except StoreFailure Fetched} {item : Item}
    (hstarted : Cache.Started s.now q s.cache (.fill fill) c)
    (hread : fill.reading.Performed answering I R { s with cache := c } result t)
    (hitem : t.cache.items[q.item]? = some item) : item.kind = q.kind := by
  obtain ⟨item₀, hid₀, hpins, hkind⟩ := hstarted.pinned
  obtain ⟨item', hid', hlater⟩ := (hholds _ _ hread.leads).later q.item item₀ hid₀ hpins
  rw [hitem] at hid'
  cases hid'
  rw [hlater.kind, hkind]

/-- What was fetched for a request of a growing store, if what is missing can be counted. -/
theorem brought_of_fill (hlawful : ∀ s, I s → s.store.Lawful)
    (hgrows : ∀ s t, R s t → s.store.Grows t.store) {q : Request} {s t : Service} {item : Item}
    {fill : Fill} {fetched : Fetched} (hmissing : q.missing? item = some fill)
    (hread : fill.reading.Performed Plain I R s (.ok fetched) t) :
    fill.extent.Brought q (fun r => fill.extent.Countable ∧ r ∈ s.store.recordsOf q.item q.kind)
      (· ∈ t.store.recordsOf q.item q.kind) item.uncachedUpTo fetched :=
  hread.yields fetched rfl _ (((truthful_asked hlawful hgrows q s t).mono fun _ h => h.2).yields_fill
    ((hlawful t hread.after).pos _ _) (fun _ h => h.1) hmissing)

/-- **What is read** for an item leaves its history faithful. -/
theorem extends_faithful (hregular : ∀ s, I s → s.store.Regular)
    (hsound : ∀ s, I s → s.cache.Sound (faithful s.store))
    (hgrows : ∀ s t, R s t → s.store.Grows t.store)
    (hholds : ∀ s t, R s t → Cache.Holds none (fun _ _ => False) s.cache t.cache) (q : Request)
    (s : Service) : Extends Plain I R faithful q s := by
  intro fill c fetched t item hstarted hread hitem
  have hkind := kind_of_fill hholds hstarted hread hitem
  obtain ⟨hrising, hmem⟩ := (hsound t hread.after q.item item hitem).contents
  have hmissing : ∃ item, q.missing? item = some fill := by
    cases hstarted with
    | fills item₀ _ _ _ _ _ hmissing _ => exact ⟨_, hmissing⟩
  obtain ⟨_, hmissing⟩ := hmissing
  obtain ⟨horder, hnodup, hhigh⟩ := hread.yields fetched rfl _
    ((truthful_asked (fun s hs => (hregular s hs).lawful) hgrows q _ t).yields_distinct hmissing)
  have hfetched : Rising fetched.records := Rising.of_inOrder horder hnodup fun a ha b hb =>
    (t.store.rising_recordsOf _ _).eq_of_time (hhigh a ha) (hhigh b hb)
  refine ⟨rising_below_append hfetched hrising, fun r hr => ?_⟩
  rcases List.mem_append.1 hr with hr | hr
  · rw [hkind]
    exact hhigh r (List.mem_filter.1 hr).1
  · exact hmem r hr

end Requests

end HistoryCache
