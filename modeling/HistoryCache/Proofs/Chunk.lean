import HistoryCache.Chunk
import HistoryCache.Proofs.Arena

/-!
# Chunks in order

`Chunk.Exact`: the slots from `start` on and below `stop` hold something and no others do.  The
operations on the two ends of such a chunk are operations on the two ends of its records.
-/

namespace HistoryCache

namespace Chunk

/-- Exactly the slots in use hold something. -/
structure Exact (c : Chunk) : Prop where
  le : c.start ≤ c.stop
  fits : c.stop ≤ c.capacity
  used : ∀ k, (c.slot? k).isSome ↔ c.start ≤ k ∧ k < c.stop

theorem kept?_setSlot {c : Chunk} {i : Nat} (hi : i < c.capacity) (r : Option CachedRecord) (k : Nat) :
    (c.setSlot i r).kept? k = if i = k then r else c.kept? k := by
  simp only [kept?, setSlot, Array.getElem?_setIfInBounds]
  split
  · next hik =>
    subst hik
    rw [if_pos (show i < c.slots.size from hi), Option.join_some]
  · rfl

theorem slot?_setSlot {c : Chunk} {i : Nat} (hi : i < c.capacity) (r : Option CachedRecord) (k : Nat) :
    (c.setSlot i r).slot? k = if i = k then r.map CachedRecord.toRecord else c.slot? k := by
  rw [slot?, kept?_setSlot hi]
  split <;> rfl

@[simp] theorem capacity_setSlot (c : Chunk) (i : Nat) (r : Option CachedRecord) :
    (c.setSlot i r).capacity = c.capacity := by
  simp [capacity, setSlot]

/-- The slots of a list of free slots hold nothing. -/
theorem filterMap_slot?_eq_nil {c : Chunk} (ks : List Nat) (h : ∀ k ∈ ks, c.slot? k = none) :
    ks.filterMap c.slot? = [] :=
  List.filterMap_eq_nil_iff.2 h

namespace Exact

variable {c : Chunk}

theorem slot?_eq_none (hc : c.Exact) {k : Nat} (hk : k < c.start ∨ c.stop ≤ k) :
    c.slot? k = none := by
  rw [← Option.not_isSome_iff_eq_none, hc.used]
  omega

theorem length_records (hc : c.Exact) : c.records.length = c.size := by
  rw [records, List.filterMap_length_eq_length.2, List.length_range']
  intro k hk
  rw [List.mem_range'_1, size] at hk
  exact (hc.used k).2 ⟨hk.1, by have := hc.le; omega⟩

theorem isEmpty_iff (hc : c.Exact) : c.isEmpty ↔ c.records = [] := by
  have := hc.le
  rw [isEmpty, beq_iff_eq, ← List.length_eq_zero_iff, hc.length_records, size]
  omega

/-- The records are copies of all that there is. -/
theorem contents_eq (hc : c.Exact) : c.contents.map CachedRecord.toRecord = c.records := by
  have hsize : c.slots.size = c.start + (c.size + (c.capacity - c.stop)) := by
    have h1 := hc.le
    have h2 := hc.fits
    rw [capacity] at *
    rw [size]
    omega
  have hall : c.contents.map CachedRecord.toRecord =
      (List.range' 0 c.slots.size).filterMap c.slot? := by
    rw [contents, filterMap_eq_range, ← List.range_eq_range', Array.length_toList,
      List.map_filterMap]
    refine List.filterMap_congr fun k _ => ?_
    rw [Array.getElem?_toList]
    rfl
  rw [hall, hsize, ← List.range'_append_1, ← List.range'_append_1, List.filterMap_append,
    List.filterMap_append, Nat.zero_add]
  rw [filterMap_slot?_eq_nil (List.range' 0 c.start), filterMap_slot?_eq_nil
    (List.range' (c.start + c.size) (c.capacity - c.stop)), List.nil_append, List.append_nil,
    records]
  · intro k hk
    rw [List.mem_range'_1, size] at hk
    exact hc.slot?_eq_none (by have := hc.le; omega)
  · intro k hk
    rw [List.mem_range'_1] at hk
    exact hc.slot?_eq_none (by omega)

theorem records_first (hc : c.Exact) (hlt : c.start < c.stop) :
    ∃ r, c.slot? c.start = some r ∧
      c.records = r :: (List.range' (c.start + 1) (c.size - 1)).filterMap c.slot? := by
  obtain ⟨r, hr⟩ := Option.isSome_iff_exists.1 ((hc.used c.start).2 ⟨Nat.le_refl _, hlt⟩)
  refine ⟨r, hr, ?_⟩
  rw [records, show c.size = c.size - 1 + 1 by rw [size]; omega, List.range'_succ,
    List.filterMap_cons, hr]
  rfl

theorem records_last (hc : c.Exact) (hlt : c.start < c.stop) :
    ∃ r, c.slot? (c.stop - 1) = some r ∧
      c.records = (List.range' c.start (c.size - 1)).filterMap c.slot? ++ [r] := by
  obtain ⟨r, hr⟩ := Option.isSome_iff_exists.1 ((hc.used (c.stop - 1)).2 (by omega))
  refine ⟨r, hr, ?_⟩
  have hlast : c.start + 1 * (c.size - 1) = c.stop - 1 := by rw [size]; omega
  rw [records, show c.size = c.size - 1 + 1 by rw [size]; omega, List.range'_concat, hlast,
    List.filterMap_append, List.filterMap_cons, hr]
  rfl

theorem oldest?_eq (hc : c.Exact) : c.oldest? = c.records.head? := by
  rw [oldest?, record?]
  by_cases hlt : c.start < c.stop
  · obtain ⟨r, hr, hrs⟩ := hc.records_first hlt
    rw [if_pos ⟨Nat.le_refl _, hlt⟩, hr, hrs, List.head?_cons]
  · rw [if_neg (fun h => hlt h.2), records, size, show c.stop - c.start = 0 by omega]
    rfl

theorem newest?_eq (hc : c.Exact) : c.newest? = c.records.getLast? := by
  rw [newest?, record?]
  by_cases hlt : c.start < c.stop
  · obtain ⟨r, hr, hrs⟩ := hc.records_last hlt
    rw [if_neg (by omega), if_pos (by omega), hr, hrs, List.getLast?_concat]
  · rw [records, size, show c.stop - c.start = 0 by omega]
    split
    · rfl
    · rw [if_neg (by omega)]
      rfl

/-! ## The ends -/

theorem forOlder (n : Nat) : (Chunk.forOlder n).Exact where
  le := Nat.le_refl n
  fits := by simp [Chunk.forOlder, capacity]
  used k := by
    have hslot : (Chunk.forOlder n).slot? k = none := by
      simp only [slot?, kept?, Chunk.forOlder, Array.getElem?_replicate]
      split <;> rfl
    rw [hslot]
    simp only [Chunk.forOlder, Option.isSome_none, Bool.false_eq_true, false_iff]
    omega

theorem pushOldest (hc : c.Exact) (hlt : 0 < c.start) (r : CachedRecord) : (c.pushOldest r).Exact where
  le := by
    have := hc.le
    change c.start - 1 ≤ c.stop
    omega
  fits := by
    change c.stop ≤ (c.setSlot (c.start - 1) (some r)).capacity
    rw [capacity_setSlot]
    exact hc.fits
  used k := by
    have hle := hc.le
    have hfits := hc.fits
    change ((c.setSlot (c.start - 1) (some r)).slot? k).isSome ↔ c.start - 1 ≤ k ∧ k < c.stop
    rw [slot?_setSlot (by omega)]
    split
    · simp only [Option.map_some, Option.isSome_some, true_iff]
      omega
    · rw [hc.used]
      omega

theorem records_pushOldest (hc : c.Exact) (hlt : 0 < c.start) (r : CachedRecord) :
    (c.pushOldest r).records = r.toRecord :: c.records := by
  have hfits := hc.fits
  have hle := hc.le
  have hslot : ∀ k, (c.pushOldest r).slot? k = if c.start - 1 = k then some r.toRecord else c.slot? k :=
    slot?_setSlot (by omega) (some r)
  have hsize : (c.pushOldest r).size = c.size + 1 := by
    change c.stop - (c.start - 1) = c.stop - c.start + 1
    omega
  rw [records, hsize, List.range'_succ, List.filterMap_cons, hslot,
    if_pos (by rfl)]
  change r.toRecord :: (List.range' (c.start - 1 + 1) c.size).filterMap (c.pushOldest r).slot? = _
  rw [Nat.sub_add_cancel hlt, records]
  congr 1
  refine List.filterMap_congr fun k hk => ?_
  rw [List.mem_range'_1] at hk
  rw [hslot, if_neg (by omega)]

theorem popOldest (hc : c.Exact) {r : Record} {rs : List Record} (h : c.records = r :: rs) :
    (∃ kept, c.popOldest.1 = some kept ∧ kept.toRecord = r) ∧ c.popOldest.2.Exact ∧
      c.popOldest.2.records = rs := by
  have hne : ¬ c.isEmpty := by
    rw [hc.isEmpty_iff, h]
    exact List.cons_ne_nil r rs
  have hlt : c.start < c.stop := by
    have hle := hc.le
    rw [isEmpty, beq_iff_eq] at hne
    omega
  obtain ⟨r', hr', hrs⟩ := hc.records_first hlt
  obtain ⟨rfl, rfl⟩ := List.cons.inj (h.symm.trans hrs)
  have hfits := hc.fits
  have hpop : c.popOldest = (c.kept? c.start, { c.setSlot c.start none with start := c.start + 1 }) :=
    if_neg hne
  have hslot : ∀ k, c.popOldest.2.slot? k = if c.start = k then none else c.slot? k := by
    rw [hpop]
    exact slot?_setSlot (by omega) none
  refine ⟨by rw [hpop]; exact Option.map_eq_some_iff.1 hr', ⟨?_, ?_, fun k => ?_⟩, ?_⟩
  · rw [hpop]
    exact hlt
  · rw [hpop]
    change c.stop ≤ (c.setSlot c.start none).capacity
    rw [capacity_setSlot]
    exact hc.fits
  · rw [hslot, hpop]
    change _ ↔ c.start + 1 ≤ k ∧ k < c.stop
    split
    · simp only [Option.isSome_none, Bool.false_eq_true, false_iff]
      omega
    · rw [hc.used]
      omega
  · have hsize : c.popOldest.2.size = c.size - 1 := by
      rw [hpop]
      change c.stop - (c.start + 1) = c.stop - c.start - 1
      omega
    have hstart : c.popOldest.2.start = c.start + 1 := by rw [hpop]
    rw [records, hsize, hstart]
    refine List.filterMap_congr fun k hk => ?_
    rw [List.mem_range'_1] at hk
    rw [hslot, if_neg (by omega)]

theorem stop_popOldest (c : Chunk) : c.popOldest.2.stop = c.stop := by
  rw [Chunk.popOldest]
  split <;> rfl

theorem capacity_popOldest (c : Chunk) : c.popOldest.2.capacity = c.capacity := by
  rw [Chunk.popOldest]
  split
  · rfl
  · exact capacity_setSlot c c.start none

end Exact

end Chunk

end HistoryCache
