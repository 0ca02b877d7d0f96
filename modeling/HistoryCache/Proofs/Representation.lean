import HistoryCache.Proofs.Operations
import Mathlib

/-!
# The representation of cached histories

In every service that operations lead to, whatever is read, written, evicted, trimmed or refused on
the way and whoever interferes, the chunks of each cached item are a well formed list: linked in both
directions, none of them empty, filled up to the two ends, in the order of time and of one kind
(`represents_of_reachable`).

The store may do what it likes between and within its answers, but records that it answers with are
of the kind that was asked for (`Typed`).
-/

namespace HistoryCache

/-- The chunks of a history, linked from the tail to the head along the places `is`, are a well
formed list of records. -/
structure History.Represents (h : History) (is : List Nat) : Prop where
  /-- Following the links from the tail visits `is`, and from the head the same in reverse. -/
  forth : Visits h.chunks.next? h.chunks.tail is
  back : Visits h.chunks.prev? h.chunks.head is.reverse
  nodup : is.Nodup
  ends : h.chunks.tail = is.head? ∧ h.chunks.head = is.getLast?
  /-- These are the places in use, and the others are free. -/
  occupied : ∀ i, (h.chunk? i).isSome ↔ i ∈ is
  count : h.chunks.count = is.length
  freeNodup : h.chunks.free.Nodup
  free : ∀ i, i ∈ h.chunks.free ↔ i < h.chunks.nodes.size ∧ h.chunk? i = none
  filled : ∀ i c, h.chunk? i = some c → c.start < c.stop
  /-- Exactly the slots from `start` on and below `stop` hold something. -/
  slots : ∀ i c, h.chunk? i = some c → ∀ k, (c.slot? k).isSome ↔ c.start ≤ k ∧ k < c.stop
  low : ∀ i c, h.chunk? i = some c → h.chunks.tail ≠ some i → c.start = 0
  high : ∀ i c, h.chunk? i = some c → h.chunks.head ≠ some i → c.stop = c.capacity
  records : h.records = is.flatMap fun i => (h.chunk? i).elim [] Chunk.records
  inOrder : h.records.Pairwise fun a b => a.time ≤ b.time
  size : h.size = h.records.length

theorem History.Sorted.represents {h : History} (hs : h.Sorted) :
    h.Represents h.chunks.forth := by
  have hl := hs.tidy.shaped.linked
  refine ⟨hl.visits_forth, hl.visits_back, hl.nodup, ⟨hl.tail, hl.head⟩,
    fun i => hl.get?_isSome_iff, hl.count, hl.free_nodup, fun i => ?_,
    fun i c hc => hs.tidy.shaped.filled hc, fun i c hc => (hs.tidy.exact hc).used,
    fun i c hc hi => ?_, fun i c hc hi => ?_, rfl, hs.inOrder, hs.tidy.length_records.symm⟩
  · rw [hl.mem_free, History.chunk?, ← Option.not_isSome_iff_eq_none,
      ← Option.not_isSome_iff_eq_none, Arena.isSome_get?]
  · refine hs.tidy.shaped.low i ?_ c hc
    have hmem := hs.tidy.shaped.mem_of_chunk hc
    rw [hl.tail] at hi
    cases hforth : h.chunks.forth with
    | nil =>
      rw [hforth] at hmem
      exact absurd hmem List.not_mem_nil
    | cons j js =>
      rw [hforth] at hmem hi
      refine (List.mem_cons.1 hmem).resolve_left ?_
      rintro rfl
      exact hi rfl
  · refine hs.tidy.shaped.high i ?_ c hc
    have hmem := hs.tidy.shaped.mem_of_chunk hc
    rw [hl.head] at hi
    rcases List.eq_nil_or_concat h.chunks.forth with hforth | ⟨js, j, hforth⟩
    · rw [hforth] at hmem
      exact absurd hmem List.not_mem_nil
    · rw [hforth, List.concat_eq_append] at hmem hi ⊢
      rw [List.getLast?_concat] at hi
      rw [List.dropLast_concat]
      refine (List.mem_append.1 hmem).resolve_right fun hj => hi ?_
      rw [List.mem_singleton.1 hj]

/-- A well formed list of records is all that the operations on a history rely on. -/
theorem History.Represents.sorted {h : History} {is : List Nat} (hr : h.Represents is) :
    h.Sorted := by
  have hlinked : h.chunks.Linked is := by
    refine .of_visits hr.forth hr.back hr.nodup (fun i => ?_) hr.count hr.freeNodup fun i => ?_
    · rw [← Arena.isSome_get?]
      exact hr.occupied i
    · rw [hr.free, History.chunk?, ← Option.not_isSome_iff_eq_none,
        ← Option.not_isSome_iff_eq_none, Arena.isSome_get?]
  have hexact : ∀ {i c}, h.chunk? i = some c → c.Exact := by
    intro i c hc
    have hfilled := hr.filled i c hc
    refine ⟨Nat.le_of_lt hfilled, ?_, hr.slots i c hc⟩
    have hlast := (hr.slots i c hc (c.stop - 1)).2 (by omega)
    by_contra hfits
    rw [Chunk.capacity] at hfits
    rw [Chunk.slot?, Chunk.kept?, Array.getElem?_eq_none (by omega)] at hlast
    cases hlast
  have hloose : h.Loose is := by
    refine ⟨⟨hlinked, hexact, hr.size⟩, fun i _ c hc => ?_, fun i hi c hc => ?_, fun i hi c hc => ?_⟩
    · exact (hexact hc).lt_iff.1 (hr.filled i c hc)
    · refine hr.low i c hc fun htail => ?_
      rw [hr.ends.1] at htail
      cases is with
      | nil => cases htail
      | cons j js => cases htail; exact (List.nodup_cons.1 hr.nodup).1 hi
    · refine hr.high i c hc fun hhead => ?_
      rw [hr.ends.2] at hhead
      obtain ⟨js, rfl⟩ := List.getLast?_eq_some_iff.1 hhead
      rw [List.dropLast_concat] at hi
      exact (List.nodup_append.1 hr.nodup).2.2 i hi i List.mem_cons_self rfl
  exact ⟨hloose.tidy fun i c _ hc => (hexact hc).lt_iff.1 (hr.filled i c hc), hr.inOrder⟩

/-- All records are of the kind of their item. -/
def ofKind : Contents := fun _ kind rs => ∀ r ∈ rs, r.value.kind = kind

theorem thins_ofKind : Thins ofKind where
  nil _ _ _ hr := absurd hr List.not_mem_nil
  sublist h hsub r hr := h r (hsub.subset hr)

/-- A store that answers with records of the kind it was asked for, or fails. -/
def Typed : Answering := fun question s answer t =>
  (∃ store, t = { s with store := store }) ∧
    ∀ records, answer = .ok records → ∀ r ∈ records, r.value.kind = question.kind

/-- The cached items are sound. -/
abbrev Service.SoundItems (s : Service) : Prop := s.cache.Sound ofKind

/-- Others leave alone what somebody holds. -/
abbrev Service.Spares (s t : Service) : Prop :=
  Cache.Holds none (fun _ _ => False) s.cache t.cache

theorem rely_typed : Rely Typed Service.SoundItems Service.Spares where
  refl _ := .of_items rfl
  trans h k := (h.trans k).mono fun _ _ h => Or.inl h
  same hitems _ _ hs := ⟨Cache.All.congr hs hitems, .of_items hitems⟩
  answers := by
    rintro question s answer t ⟨⟨store, rfl⟩, -⟩ hs
    exact ⟨hs, .of_items rfl⟩

/-- What is read for an item is of its kind. -/
theorem extends_typed (q : Request) (s : Service) :
    Extends Typed Service.SoundItems Service.Spares (fun _ => ofKind) q s := by
  intro fill c fetched t item hstarted hread hitem r hr
  rcases List.mem_append.1 hr with hr | hr
  · obtain ⟨item₀, hid₀, hpins, hkind₀⟩ := hstarted.pinned
    obtain ⟨item', hid', hlater⟩ := hread.leads.later q.item item₀ hid₀ hpins
    rw [hitem] at hid'
    cases hid'
    have hfetched := (hread.yields fetched rfl _ (hstarted.fetches
      (G := fun r => r.value.kind = q.kind) fun question records _ hk hA r hr => ?_)).2
    · rw [hlater.kind, hkind₀]
      exact hfetched r (List.mem_filter.1 hr).1
    · obtain ⟨_, _, -, -, ⟨-, htyped⟩, -⟩ := hA
      rw [htyped records rfl r hr, hk]
  · exact (hread.after q.item item hitem).contents r hr

theorem follows_typed : Follows Typed Rules.free Service.SoundItems Service.Spares where
  toRely := rely_typed
  gets {σ K b c q s x} hb _ _ hs hx := by
    have hsorted : ∀ s : Service, s.SoundItems → s.cache.Sound fun _ _ _ => True :=
      fun s hs => hs.mono fun _ => trivial
    obtain ⟨hgot, hK⟩ := getThrough_got rely_typed hsorted (fun _ _ h => h) hb hs hx
      (fun next c _ hstarted => hs.started thins_ofKind hstarted)
      (fun fill c fetched t item c' hstarted hread hitem hfinished =>
        (extends_typed q s).finished (fun _ => thins_ofKind) (fun _ h => h) hstarted hread hitem
          hfinished) rfl
    refine ⟨hgot.sound (extends_typed q s) (fun _ => thins_ofKind) (fun _ h => h) hs, ?_, hK⟩
    exact hgot.holds (N := fun _ _ _ _ => False) hsorted (fun _ _ h => h) False.elim (fun h => h) hs
  adds {s enabled writes} _ hs := by
    rw [Service.add]
    split
    · exact ⟨hs, .of_items rfl⟩
    · cases enabled with
      | true =>
        refine ⟨hs.ingest thins_ofKind s.now fun w _ rs hrs r hr => ?_, ?_⟩
        · rcases Cache.mem_placed.1 hr with hr | rfl
          · exact hrs r hr
          · rfl
        · exact (Cache.Holds.ingest (hs.mono fun _ => trivial) s.now writes).mono
            fun _ _ h => h.elim
      | false => exact ⟨hs, .of_items rfl⟩
  removes items hs := ⟨hs.requestRemovals items, .requestRemovals items _⟩
  resets hs := ⟨hs.reset, .reset _⟩
  inserts _ hs := ⟨hs, .of_items rfl⟩

/-- **The chunks** of every cached item are a well formed list of records of the item's kind. -/
theorem represents_of_reachable {config : Config} {now : Int} {s₀ s : Service} {id : ItemId}
    {item : Item} (hnew : Service.new config now = .ok s₀)
    (hs : Reachable Typed Rules.free.Permits (fun s => ∃ store, s = { s₀ with store := store }) s)
    (hid : s.cache.items[id]? = some item) :
    item.history.Represents item.history.chunks.forth ∧
      ∀ r ∈ item.history.records, r.value.kind = item.kind := by
  have hinitial : ∀ s, (∃ store, s = { s₀ with store := store }) → s.SoundItems := by
    rintro _ ⟨store, rfl⟩ id item hid
    have hempty : s₀.cache.items = ∅ := by rw [Service.eq_of_new hnew, Cache.new]
    change s₀.cache.items[id]? = some item at hid
    rw [hempty, Std.ExtTreeMap.getElem?_empty] at hid
    cases hid
  have hitem := follows_typed.preserved.reachable hinitial hs id item hid
  exact ⟨hitem.sorted.represents, hitem.contents⟩

/-- A store that has two numbers of every item. -/
def twoNumbers : Backend Unit := fun question (s, x) =>
  (.ok (match question.kind with
    | .uint => [⟨⟨995, 0⟩, .uint 2⟩, ⟨⟨990, 0⟩, .uint 1⟩]
    | _ => []), s, x)

theorem admits_twoNumbers : Admits Typed Eq twoNumbers := by
  intro question s x
  refine ⟨s, s, rfl, ⟨⟨s.store, rfl⟩, fun records hrecords r hr => ?_⟩, rfl⟩
  rw [twoNumbers] at hrecords
  cases hkind : question.kind <;> rw [hkind] at hrecords <;> cases hrecords
  case uint =>
    simp only [List.mem_cons, List.not_mem_nil, or_false] at hr
    rcases hr with rfl | rfl <;> rfl
  all_goals exact absurd hr List.not_mem_nil

/-- That service after a request for the last minute of item 7. -/
def servedService : Service :=
  (Service.execute twoNumbers twoNumbers (.call 0 (.get ⟨7, .uint, 60, 0, ⟨1000, 0⟩⟩))
    (newService.enable 0, ())).2.1

theorem represents_two_numbers : ∃ item : Item, servedService.cache.items[7]? = some item ∧
    item.history.records.map Record.sec = [990, 995] ∧
    item.history.Represents item.history.chunks.forth := by
  have hrecords : (servedService.cache.items[7]?).map
      (fun item => item.history.records.map Record.sec) = some [990, 995] := by cbv
  obtain ⟨item, hid, hsecs⟩ := Option.map_eq_some_iff.1 hrecords
  have h₀ : Reachable Typed Rules.free.Permits
      (fun s => ∃ store, s = { newService with store := store }) newService :=
    .initial _ ⟨{}, rfl⟩
  have h₁ := h₀.after _ (newService.enable 0) 0 ⟨Unit, twoNumbers, twoNumbers, .enable 0, (),
    admits_twoNumbers, admits_twoNumbers, trivial, rfl⟩
  have h₂ := h₁.after _ servedService 0 ⟨Unit, twoNumbers, twoNumbers,
    .call 0 (.get ⟨7, .uint, 60, 0, ⟨1000, 0⟩⟩), (), admits_twoNumbers, admits_twoNumbers,
    fun _ _ => trivial, rfl⟩
  exact ⟨item, hid, hsecs, (represents_of_reachable new_newService h₂ hid).1⟩

end HistoryCache
