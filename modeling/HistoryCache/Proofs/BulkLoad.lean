import HistoryCache.Proofs.Capacities
import HistoryCache.Proofs.Representation

/-!
# Bulk loads

Records that are put below an empty history all go into chunks of one capacity, for the number of
records held and to be held stays the same from the first to the last.  Only the oldest chunk has
free slots then (`History.Packed`), so the number of chunks is that of the records over the capacity,
rounded up.

The capacity is the square root of the number as long as that leaves room below the number of chunks
aimed at, and a part of the number from there on.  Both are rounded down, which costs up to two more
chunks (`History.chunks_le`): 958 records take 34.
-/

namespace HistoryCache

namespace History

/-! ## Capacities -/

theorem capacityFor_bounds (values : Nat) :
    Chunk.minCapacity ≤ capacityFor values ∧ capacityFor values ≤ Chunk.maxCapacity :=
  ⟨Nat.le_max_left _ _, Nat.max_le.2 ⟨by decide, Nat.min_le_right _ _⟩⟩

/-- Too many chunks for a square root as the capacity are a sign of many values. -/
theorem lt_of_many {values root : Nat} (hroot : 0 < root)
    (hlt : values < (root + 1) * (root + 1))
    (hmany : maxChunks < (values + root - 1) / root + 1) : 930 < values := by
  have hvalues : 31 * root < values := by
    rw [maxChunks] at hmany
    have := (Nat.le_div_iff_mul_le hroot).1 (Nat.le_of_lt_succ hmany)
    omega
  have hlarge : 30 ≤ root := by
    by_contra hsmall
    have := Nat.mul_le_mul_right root (show root ≤ 29 by omega)
    rw [Nat.mul_succ, Nat.succ_mul] at hlt
    omega
  omega

/-- So many values fit into the number of chunks aimed at and two more. -/
theorem le_mul_capacityFor {values : Nat} (hpos : 0 < values)
    (hle : values ≤ maxChunks * Chunk.maxCapacity) :
    values ≤ capacityFor values * (maxChunks + 2) := by
  have hsq := squareRoot_sq_le values
  have hlt := lt_squareRoot_succ_sq values
  have hmax : Chunk.maxCapacity = 1637 := rfl
  rw [capacityFor, Chunk.minCapacity]
  generalize squareRoot values = root at hsq hlt
  have hroot : 0 < root := by
    by_contra hzero
    rw [Nat.eq_zero_of_not_pos hzero] at hlt
    omega
  split
  · next h =>
    -- A part of the values is taken only where rounding it down costs less than two chunks.
    have hmany := lt_of_many hroot hlt h.2
    rw [maxChunks] at hle ⊢
    omega
  · next h =>
    have hfew : values ≤ 31 * root := by
      rw [not_and, Nat.not_lt, maxChunks] at h
      have := (Nat.div_lt_iff_lt_mul hroot).1 (Nat.lt_of_succ_le (h hroot))
      omega
    have hsmall : root ≤ Chunk.maxCapacity := by
      by_contra hlarge
      have := Nat.mul_le_mul (Nat.le_of_not_le hlarge) (Nat.le_of_not_le hlarge)
      rw [hmax] at this
      rw [maxChunks] at hle
      omega
    rw [maxChunks]
    omega

theorem chunks_le {values : Nat} (hpos : 0 < values)
    (hle : values ≤ maxChunks * Chunk.maxCapacity) :
    values ⌈/⌉ capacityFor values ≤ maxChunks + 2 :=
  (ceilDiv_le_iff_le_mul (capacityFor_pos values)).2 (le_mul_capacityFor hpos hle)

/-! ## Free slots -/

/-- The number of free slots below the oldest record. -/
def room (h : History) : Nat := (h.chunks.tail.bind h.chunk?).elim 0 Chunk.start

theorem hasRoom_iff {h : History} : h.hasRoom ↔ 0 < h.room := by
  rw [hasRoom, room]
  cases h.chunks.tail.bind h.chunk? <;> simp

theorem room_addOldest {h : History} (ht : h.Tidy) (n : Nat) : (h.addOldest n).room = n := by
  obtain ⟨i, hk, -, hget, -⟩ := ht.kept.addOldest n
  rw [room, hk.linked.tail, List.head?_cons, Option.bind_some, hget, if_pos rfl]
  rfl

theorem room_pushOldest (h : History) (r : CachedRecord) : (h.pushOldest r).room = h.room - 1 := by
  cases htail : h.chunks.tail with
  | none =>
    have hpush : h.pushOldest r = h := by rw [pushOldest, htail]
    have hroom : h.room = 0 := by rw [room, htail]; rfl
    rw [hpush, hroom]
  | some i =>
    have hpush : h.pushOldest r = { h.modify i (·.pushOldest r) with size := h.size + 1 } := by
      rw [pushOldest, htail]
    have hchunk : (h.pushOldest r).chunk? i = (h.chunk? i).map (·.pushOldest r) := by
      rw [hpush]
      exact (chunk?_modify h i i _).trans (if_pos rfl)
    have htail' : (h.pushOldest r).chunks.tail = some i := by rw [hpush]; exact htail
    rw [room, room, htail, htail', Option.bind_some, Option.bind_some, hchunk]
    cases h.chunk? i <;> rfl

/-- The chunks have one capacity, and slots are free only below the oldest record. -/
structure Packed (h : History) (capacity n : Nat) : Prop where
  capacities : h.capacities = List.replicate n capacity
  slots : n * capacity = h.size + h.room

namespace Packed

variable {h : History} {capacity n : Nat}

theorem of_empty (ht : h.Tidy) (hempty : h.records = []) :
    h.Packed capacity 0 ∧ h.size = 0 ∧ h.room = 0 := by
  have hforth : h.chunks.forth = [] := by
    have hcount := ht.isEmpty_iff.2 hempty
    rw [isEmpty, beq_iff_eq, ht.shaped.linked.count] at hcount
    exact List.length_eq_zero_iff.1 hcount
  have hsize : h.size = 0 := by rw [← ht.length_records, hempty, List.length_nil]
  have hroom : h.room = 0 := by
    rw [room, ht.shaped.linked.tail, hforth]
    rfl
  refine ⟨⟨by rw [History.capacities, hforth]; rfl, ?_⟩, hsize, hroom⟩
  rw [hsize, hroom, Nat.zero_mul]

/-- A chunk is put below the others when all slots are taken. -/
theorem addOldest (hp : h.Packed capacity n) (ht : h.Tidy) (hroom : ¬ h.hasRoom) :
    (h.addOldest capacity).Packed capacity (n + 1) where
  capacities := by
    rw [(capacities_addOldest ht.strung capacity).2, hp.capacities]
    rfl
  slots := by
    rw [hasRoom_iff, Nat.not_lt, Nat.le_zero] at hroom
    rw [room_addOldest ht, Nat.succ_mul, hp.slots, hroom]
    rfl

theorem pushOldest (hp : h.Packed capacity n) {is : List Nat} (hl : h.Loose is) (hroom : h.hasRoom)
    (r : CachedRecord) : (h.pushOldest r).Packed capacity n where
  capacities := (SameChunks.pushOldest h r).capacities.trans hp.capacities
  slots := by
    obtain ⟨ht, hrecords⟩ := hl.pushOldest hroom r
    have hsize := ht.length_records
    rw [hrecords, List.length_cons, ← hl.kept.size] at hsize
    rw [hp.slots, room_pushOldest, ← hsize]
    have := hasRoom_iff.1 hroom
    omega

/-- With less room than a chunk has, the chunks are as few as they can be. -/
theorem eq_ceilDiv (hp : h.Packed capacity n) (hroom : h.room < capacity) :
    n = h.size ⌈/⌉ capacity := by
  have hslots := hp.slots
  rw [Nat.ceilDiv_eq_add_pred_div, eq_comm]
  apply Nat.div_eq_of_lt_le
  · omega
  · rw [Nat.succ_mul]
    omega

theorem length_eq (hp : h.Packed capacity n) (ht : h.Tidy) : h.length = n := by
  have hall : ∀ i ∈ h.chunks.forth, (h.capacityAt i).isSome := by
    intro i hi
    obtain ⟨c, hc⟩ := ht.shaped.exists_chunk hi
    rw [capacityAt, hc]
    rfl
  have hlength := congrArg List.length hp.capacities
  rwa [History.capacities, List.filterMap_length_eq_length.2 hall, ← ht.shaped.linked.count,
    List.length_replicate] at hlength

end Packed

end History

namespace Cache

variable {c c' : Cache} {now : Int} {id : ItemId} {h h' g : History} {capacity n : Nat}

/-! ## Loads -/

/-- A chunk that is opened has the capacity of the others, if that is the one for all records. -/
theorem openOldest_packed {waiting : List Record} (ht : h.Tidy) (hp : h.Packed capacity n)
    (hroom : h.room < capacity) (hcapacity : History.capacityFor (h.size + waiting.length) = capacity)
    (hopen : c.openOldest now id waiting h = (.ok g, c')) :
    ∃ m, g.Packed capacity m ∧ g.room ≤ capacity := by
  rw [openOldest] at hopen
  split at hopen
  · cases hopen
    exact ⟨n, hp, Nat.le_of_lt hroom⟩
  · next hfull =>
    rw [hcapacity] at hopen
    simp only [] at hopen
    split at hopen
    · cases hopen
      exact ⟨n + 1, hp.addOldest ht hfull, Nat.le_of_eq (History.room_addOldest ht capacity)⟩
    · cases hopen

theorem openOldest_pushOldest {waiting : List Record} (ht : h.Tidy)
    (hopen : c.openOldest now id waiting h = (.ok g, c')) (r : CachedRecord) :
    (g.pushOldest r).Tidy ∧ (g.pushOldest r).size = h.size + 1 := by
  obtain ⟨is, hloose, hroom, hrecords⟩ := openOldest_ok ht hopen
  obtain ⟨ht', hrecords'⟩ := hloose.pushOldest hroom r
  refine ⟨ht', ?_⟩
  rw [← ht'.length_records, hrecords', List.length_cons, hrecords, ht.length_records]

/-- Records that are put below a history leave it packed, if the capacity is the one for all of
them. -/
theorem fill_packed {rs : List Record} (ht : h.Tidy) (hp : h.Packed capacity n)
    (hroom : h.room < capacity) (hcapacity : History.capacityFor (h.size + rs.length) = capacity)
    (hfill : fill now id rs h c = (.ok (), h', c')) :
    h'.Tidy ∧ ∃ m, h'.Packed capacity m ∧ h'.room < capacity := by
  induction rs generalizing c h n with
  | nil =>
    cases hfill
    exact ⟨ht, n, hp, hroom⟩
  | cons r older ih =>
    -- One record more is held and one less to come, so that the capacity for all stays the same.
    rw [fill] at hfill
    split at hfill
    · cases hfill
    · next g c₁ hopen =>
      obtain ⟨m, hg, hle⟩ := openOldest_packed ht hp hroom hcapacity hopen
      obtain ⟨is, hloose, hopened, -⟩ := openOldest_ok ht hopen
      split at hfill
      · next value c₂ _ =>
        obtain ⟨ht', hsize⟩ := openOldest_pushOldest ht hopen ⟨r.time, value⟩
        refine ih ht' (hg.pushOldest hloose hopened ⟨r.time, value⟩) ?_ ?_ hfill
        · rw [History.room_pushOldest]
          have := History.hasRoom_iff.1 hopened
          omega
        · rwa [hsize, Nat.add_assoc, Nat.add_comm 1]
      · generalize g.dropEmpty = dropped at hfill
        cases hfill

/-! ### Room for a load -/

theorem holdValue_of_texts_nil {v : Value} (h : v.texts = []) :
    c.holdValue now id v = (.ok v.copy, c) := by
  cases v with
  | float | uint => rfl
  | str | text => cases h
  | log entry => exact absurd h (List.append_ne_nil_of_right_ne_nil _ (List.cons_ne_nil _ _))

theorem openOldest_of_fits {waiting : List Record}
    (hfits : c.budget.Fits (Chunk.bytes (History.capacityFor (h.size + waiting.length)))) :
    ∃ g c', c.openOldest now id waiting h = (.ok g, c') ∧ c'.budget.total = c.budget.total ∧
      c'.budget.used ≤ c.budget.used +
        (Chunk.bytes (History.capacityFor (h.size + waiting.length)) + Budget.overhead) := by
  rw [openOldest]
  split
  · exact ⟨h, c, rfl, rfl, Nat.le_add_right _ _⟩
  · simp only [charge, Budget.tryCharge_of_fits hfits]
    exact ⟨_, _, rfl, rfl, Nat.le_refl _⟩

/-- Records without texts enter whole, if the budget has room for a chunk for each of them. -/
theorem fill_of_fits {rs : List Record} (ht : h.Tidy) (htexts : ∀ r ∈ rs, r.value.texts = [])
    (hcapacity : History.capacityFor (h.size + rs.length) = capacity)
    (hfits : c.budget.used + rs.length * (Chunk.bytes capacity + Budget.overhead) ≤
      c.budget.total) : ∃ h' c', fill now id rs h c = (.ok (), h', c') := by
  induction rs generalizing c h with
  | nil => exact ⟨h, c, rfl⟩
  | cons r older ih =>
    rw [List.length_cons, Nat.succ_mul] at hfits
    have hroom : c.budget.Fits (Chunk.bytes (History.capacityFor (h.size + (r :: older).length))) := by
      rw [hcapacity, Budget.Fits]
      omega
    obtain ⟨g, c₁, hopen, htotal, hused⟩ := openOldest_of_fits hroom
    rw [hcapacity] at hused
    obtain ⟨ht', hsize⟩ := openOldest_pushOldest ht hopen ⟨r.time, r.value.copy⟩
    rw [fill, hopen]
    simp only [holdValue_of_texts_nil (htexts r List.mem_cons_self)]
    refine ih ht' (fun x hx => htexts x (List.mem_cons_of_mem r hx)) ?_ (by omega)
    rwa [hsize, Nat.add_assoc, Nat.add_comm 1]

/-! ### The number of chunks -/

/-- **A load** of records into an empty item makes chunks of one capacity, as few as it takes. -/
theorem prepend_of_empty {records : List Record} {item item' : Item} {is : List Nat}
    (hitem : item.history.Represents is) (hempty : item.history.records = [])
    (ho : InOrder records) (hne : records ≠ [])
    (hle : records.length ≤ History.maxChunks * Chunk.maxCapacity)
    (hprepend : c.prepend now id records item = (.ok (), item', c')) :
    let capacity := History.capacityFor records.length
    Chunk.minCapacity ≤ capacity ∧ capacity ≤ Chunk.maxCapacity ∧
    item'.history.records = records ∧
    item'.history.capacities = List.replicate (records.length ⌈/⌉ capacity) capacity ∧
    item'.history.length = records.length ⌈/⌉ capacity ∧
    item'.history.length ≤ History.maxChunks + 2 := by
  intro capacity
  have ht := hitem.sorted.tidy
  obtain ⟨g, taken, rfl, hgt, -, -, hrecords, ⟨-, rfl⟩ | ⟨_, herror⟩⟩ :=
    prepend_spec ht ho hprepend
  · have hbelow : below item.history records = records := by
      rw [below, hempty]
      exact List.filter_eq_self.2 fun _ _ => rfl
    rw [hbelow, hempty, List.append_nil] at hrecords
    have hsize : g.size = records.length := by rw [← hgt.length_records, hrecords]
    have hfilled := belowHistory_eq ht ho
    rw [hbelow] at hfilled
    rw [prepend, hfilled] at hprepend
    generalize hfill : fill now id records.reverse item.history c = filled at hprepend
    obtain ⟨result, h, c₁⟩ := filled
    cases hprepend
    obtain ⟨hnone, hzero, hfull⟩ : item.history.Packed capacity 0 ∧ item.history.size = 0 ∧
        item.history.room = 0 := History.Packed.of_empty ht hempty
    obtain ⟨-, m, hpacked, hroom⟩ := fill_packed ht hnone
      (by rw [hfull]; exact History.capacityFor_pos _)
      (by rw [hzero, Nat.zero_add, List.length_reverse]) hfill
    have hm := hpacked.eq_ceilDiv hroom
    rw [hsize] at hm
    have hlength := (hpacked.length_eq hgt).trans hm
    obtain ⟨hmin, hmax⟩ := History.capacityFor_bounds records.length
    refine ⟨hmin, hmax, hrecords, hm ▸ hpacked.capacities, hlength, ?_⟩
    rw [hlength]
    exact History.chunks_le (List.length_pos_of_ne_nil hne) hle
  · cases herror

/-- Numbers of the first 958 seconds. -/
def manyNumbers : List Record := (List.range 958).map fun i : Nat => ⟨⟨i + 1, 0⟩, .uint 1⟩

/-- Chunks of 29 slots are the most that it takes. -/
theorem prepend_of_empty_many : ∃ item c,
    newService.cache.prepend 1000 7 manyNumbers (.empty .uint 1000) = (.ok (), item, c) ∧
    item.history.records = manyNumbers ∧ item.history.capacities = List.replicate 34 29 ∧
    item.history.length = History.maxChunks + 2 := by
  have hlength : manyNumbers.length = 958 := by rw [manyNumbers, List.length_map, List.length_range]
  have hcapacity : History.capacityFor 958 = 29 := by decide
  have ho : InOrder manyNumbers := by
    rw [InOrder, manyNumbers, List.pairwise_map]
    refine List.pairwise_lt_range.imp fun {i j} hij => ?_
    rw [Timestamp.le_def]
    left
    show (i : Int) + 1 < j + 1
    omega
  obtain ⟨h, c, hfill⟩ : ∃ h c, fill 1000 7 manyNumbers.reverse (Item.empty .uint 1000).history
      newService.cache = (.ok (), h, c) := by
    have hload : History.capacityFor
        ((Item.empty .uint 1000).history.size + manyNumbers.reverse.length) = 29 := by
      rw [List.length_reverse, hlength]
      exact hcapacity
    refine fill_of_fits .empty (fun r hr => ?_) hload ?_
    · rw [List.mem_reverse, manyNumbers, List.mem_map] at hr
      obtain ⟨i, -, rfl⟩ := hr
      rfl
    · rw [List.length_reverse, hlength]
      decide
  have hprepend : newService.cache.prepend 1000 7 manyNumbers (.empty .uint 1000) =
      (.ok (), { Item.empty .uint 1000 with history := h }, c) := by
    have hbelow : belowHistory (Item.empty .uint 1000).history manyNumbers = manyNumbers.reverse :=
      rfl
    rw [prepend, hbelow, hfill]
  obtain ⟨-, -, hrecords, hcapacities, hchunks, -⟩ := prepend_of_empty
    History.Sorted.empty.represents rfl ho (by rw [← List.length_pos_iff, hlength]; decide)
    (by rw [hlength]; decide) hprepend
  rw [hlength, hcapacity] at hcapacities hchunks
  exact ⟨_, c, hprepend, hrecords, hcapacities, hchunks⟩

end Cache

end HistoryCache
