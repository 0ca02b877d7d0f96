import HistoryCache.Cache.Allocation
import HistoryCache.Proofs.Capacities
import Mathlib.Algebra.BigOperators.Group.Multiset.Basic
import Mathlib.Data.Multiset.Count
import Mathlib.Tactic.Abel

/-!
# What is charged for

Everything that the cache keeps is made of charges: blocks of memory of some size, and references to
texts.  An item, a history, a value and what a history has let go of each have their charges, and so
has the cache (`Cache.held`).

`Cache.Balances c M` says that the budget and the pool of texts tell of exactly the charges `M`, each
block with its overhead and each text once, however often it is referred to.  What is taken adds to
`M` and what is given back leaves it, and since it was there, giving it back never takes more from the
budget than is in use (`Balances.refund`, `Balances.releaseText`).
-/

namespace Std.ExtTreeMap

variable {α β : Type} {cmp : α → α → Ordering} [TransCmp cmp] [LawfulEqCmp cmp]

theorem nodup_toList (m : ExtTreeMap α β cmp) : m.toList.Nodup :=
  m.distinct_keys_toList.imp fun {a b} h heq => h (by rw [heq]; exact ReflCmp.compare_self)

/-- The entries of a map are one of them and those that are left without it. -/
theorem toList_perm_erase {m : ExtTreeMap α β cmp} {k : α} {v : β} (h : m[k]? = some v) :
    m.toList.Perm ((k, v) :: (m.erase k).toList) := by
  have hout : (k, v) ∉ (m.erase k).toList := by
    rw [mem_toList_iff_getElem?_eq_some, getElem?_erase_self]
    exact fun hv => by cases hv
  refine (List.perm_ext_iff_of_nodup m.nodup_toList
    (List.nodup_cons.2 ⟨hout, nodup_toList _⟩)).2 fun ⟨j, w⟩ => ?_
  rw [List.mem_cons, mem_toList_iff_getElem?_eq_some, mem_toList_iff_getElem?_eq_some,
    getElem?_erase, Prod.mk.injEq]
  by_cases hj : k = j
  · subst hj
    rw [h]
    simp [eq_comm]
  · have hne : ¬ cmp k j = .eq := fun heq => hj (LawfulEqCmp.eq_of_compare heq)
    rw [if_neg hne]
    exact ⟨Or.inr, fun h => h.resolve_left fun he => hj he.1.symm⟩

theorem erase_insert_self (m : ExtTreeMap α β cmp) (k : α) (v : β) :
    (m.insert k v).erase k = m.erase k := by
  refine ext_getElem? fun j => ?_
  rw [getElem?_erase, getElem?_erase, getElem?_insert]
  split
  · rfl
  · rfl

theorem erase_of_none {m : ExtTreeMap α β cmp} {k : α} (h : m[k]? = none) : m.erase k = m := by
  refine ext_getElem? fun j => ?_
  rw [getElem?_erase]
  split
  · next heq => rw [← LawfulEqCmp.eq_of_compare heq, h]
  · rfl

end Std.ExtTreeMap

namespace HistoryCache

/-- What is taken for something that the cache keeps. -/
inductive Charge where
  /-- Memory of some size. -/
  | block (size : Nat)
  /-- A reference to a text. -/
  | text (s : String)
  deriving DecidableEq

namespace Charge

/-- Bytes of the budget. -/
def bytes : Charge → Nat
  | block size => size + Budget.overhead
  | text _ => 0

/-- Allocations of the budget. -/
def blocks : Charge → Nat
  | block _ => 1
  | text _ => 0

end Charge

abbrev Charges := Multiset Charge

def bytesOf (M : Charges) : Nat := (M.map Charge.bytes).sum

def blocksOf (M : Charges) : Nat := (M.map Charge.blocks).sum

section

variable (M N : Charges) (size : Nat) (s t : String)

@[simp] theorem bytesOf_add : bytesOf (M + N) = bytesOf M + bytesOf N := by
  rw [bytesOf, Multiset.map_add, Multiset.sum_add]
  rfl

@[simp] theorem blocksOf_add : blocksOf (M + N) = blocksOf M + blocksOf N := by
  rw [blocksOf, Multiset.map_add, Multiset.sum_add]
  rfl

@[simp] theorem bytesOf_block : bytesOf {.block size} = size + Budget.overhead := by
  rw [bytesOf, Multiset.map_singleton, Multiset.sum_singleton, Charge.bytes]

@[simp] theorem blocksOf_block : blocksOf {.block size} = 1 := by
  rw [blocksOf, Multiset.map_singleton, Multiset.sum_singleton, Charge.blocks]

@[simp] theorem bytesOf_text : bytesOf {.text s} = 0 := rfl

@[simp] theorem blocksOf_text : blocksOf {.text s} = 0 := rfl

@[simp] theorem count_text_add_block :
    (M + {.block size}).count (.text s) = M.count (.text s) := by
  rw [Multiset.count_add, Multiset.count_singleton, if_neg (by simp), Nat.add_zero]

theorem count_text_add_text : (M + {.text s}).count (.text t) =
    if s = t then M.count (.text t) + 1 else M.count (.text t) := by
  rw [Multiset.count_add, Multiset.count_singleton]
  by_cases h : s = t
  · rw [if_pos h, if_pos (by rw [h])]
  · rw [if_neg h, if_neg (by simpa [eq_comm] using h), Nat.add_zero]

end

/-- The block that a value takes beside its texts. -/
def Value.block : Value → Charges
  | .log _ => {.block LogEntry.bytes}
  | .float _ | .str _ | .uint _ | .text _ => 0

/-- References to texts. -/
def textCharges (ss : List String) : Charges := ↑(ss.map Charge.text)

def Value.charges (v : Value) : Charges := v.block + textCharges v.texts

def recordCharges (rs : List Record) : Charges := (rs.map fun r => r.value.charges).sum

def chunkCharges (capacities : List Nat) : Charges :=
  ↑(capacities.map fun n => Charge.block (Chunk.bytes n))

def Released.charges (gone : Released) : Charges :=
  chunkCharges gone.chunks + recordCharges gone.records

def History.charges (h : History) : Charges := chunkCharges h.capacities + recordCharges h.records

def Item.charges (item : Item) : Charges := {.block Item.entryBytes} + item.history.charges

theorem textCharges_cons (s : String) (ss : List String) :
    textCharges (s :: ss) = {.text s} + textCharges ss := by
  rw [textCharges, List.map_cons, ← Multiset.cons_coe, ← Multiset.singleton_add]
  rfl

theorem chunkCharges_cons (n : Nat) (ns : List Nat) :
    chunkCharges (n :: ns) = {.block (Chunk.bytes n)} + chunkCharges ns := by
  rw [chunkCharges, List.map_cons, ← Multiset.cons_coe, ← Multiset.singleton_add]
  rfl

theorem chunkCharges_append (ns ms : List Nat) :
    chunkCharges (ns ++ ms) = chunkCharges ns + chunkCharges ms := by
  rw [chunkCharges, List.map_append, ← Multiset.coe_add]
  rfl

theorem chunkCharges_perm {ns ms : List Nat} (h : ns.Perm ms) :
    chunkCharges ns = chunkCharges ms := Multiset.coe_eq_coe.2 (h.map _)

theorem recordCharges_cons (r : Record) (rs : List Record) :
    recordCharges (r :: rs) = r.value.charges + recordCharges rs := rfl

theorem recordCharges_append (rs ts : List Record) :
    recordCharges (rs ++ ts) = recordCharges rs + recordCharges ts := by
  rw [recordCharges, List.map_append, List.sum_append]
  rfl

theorem recordCharges_perm {rs ts : List Record} (h : rs.Perm ts) :
    recordCharges rs = recordCharges ts := (h.map _).sum_eq

theorem Value.charges_of_ne_log {v : Value} (h : v.block = 0) : v.charges = textCharges v.texts := by
  rw [charges, h, Multiset.zero_add]

/-- A history is what it has let go of and what is left of it. -/
theorem History.Parts.charges {h g : History} {gone : Released} (hparts : h.Parts gone g)
    (hrecords : (gone.records ++ g.records).Perm h.records) :
    gone.charges + g.charges = h.charges := by
  rw [History.charges.eq_1 h, ← chunkCharges_perm hparts.perm, ← recordCharges_perm hrecords,
    chunkCharges_append, recordCharges_append, Released.charges, History.charges]
  abel

theorem History.Tidy.charges_releaseAll {h : History} (ht : h.Tidy) :
    h.releaseAll.charges = h.charges := by
  obtain ⟨hrecords, hchunks⟩ := History.perm_releaseAll ht
  rw [Released.charges, chunkCharges_perm hchunks, recordCharges_perm hrecords, History.charges]

/-! ## The pool -/

namespace StringPool

variable {p : StringPool} {s : String}

/-- Bytes of the budget that the pooled texts cost. -/
def bytes (p : StringPool) : Nat :=
  (p.counts.toList.map fun e => entryBytes e.1 + Budget.overhead).sum

theorem contains_iff : p.contains s ↔ ∃ n, p.counts[s]? = some n := by
  rw [contains, Std.ExtTreeMap.contains_eq_isSome_getElem?, Option.isSome_iff_exists]

theorem refs_of_some {n : Nat} (h : p.counts[s]? = some n) : p.refs s = n := by
  rw [refs, Std.ExtTreeMap.getD_eq_getD_getElem?, h, Option.getD_some]

theorem refs_of_none (h : p.counts[s]? = none) : p.refs s = 0 := by
  rw [refs, Std.ExtTreeMap.getD_eq_getD_getElem?, h, Option.getD_none]

theorem bytes_of_some {n : Nat} (h : p.counts[s]? = some n) :
    p.bytes = entryBytes s + Budget.overhead + (⟨p.counts.erase s⟩ : StringPool).bytes := by
  rw [bytes, ((Std.ExtTreeMap.toList_perm_erase h).map _).sum_eq, List.map_cons, List.sum_cons]
  rfl

theorem size_of_some {n : Nat} (h : p.counts[s]? = some n) :
    p.size = 1 + (⟨p.counts.erase s⟩ : StringPool).size := by
  have hlength := (Std.ExtTreeMap.toList_perm_erase h).length_eq
  rw [List.length_cons, Std.ExtTreeMap.length_toList, Std.ExtTreeMap.length_toList] at hlength
  rw [size, size, hlength, Nat.add_comm]

theorem bytes_insert (p : StringPool) (s : String) (n : Nat) :
    (⟨p.counts.insert s n⟩ : StringPool).bytes =
      entryBytes s + Budget.overhead + (⟨p.counts.erase s⟩ : StringPool).bytes := by
  rw [bytes_of_some (p := ⟨p.counts.insert s n⟩) (s := s) (n := n)
    Std.ExtTreeMap.getElem?_insert_self, Std.ExtTreeMap.erase_insert_self]

theorem size_insert (p : StringPool) (s : String) (n : Nat) :
    (⟨p.counts.insert s n⟩ : StringPool).size = 1 + (⟨p.counts.erase s⟩ : StringPool).size := by
  rw [size_of_some (p := ⟨p.counts.insert s n⟩) (s := s) (n := n)
    Std.ExtTreeMap.getElem?_insert_self, Std.ExtTreeMap.erase_insert_self]

theorem refs_insert (p : StringPool) (s t : String) (n : Nat) :
    (⟨p.counts.insert s n⟩ : StringPool).refs t = if s = t then n else p.refs t := by
  by_cases h : s = t
  · subst h; simp [refs]
  · simp [refs, Std.ExtTreeMap.getD_insert, h]

theorem refs_erase (p : StringPool) (s t : String) :
    (⟨p.counts.erase s⟩ : StringPool).refs t = if s = t then 0 else p.refs t := by
  by_cases h : s = t
  · subst h; simp [refs]
  · simp [refs, Std.ExtTreeMap.getD_erase, h]

theorem contains_insert (p : StringPool) (s t : String) (n : Nat) :
    (⟨p.counts.insert s n⟩ : StringPool).contains t ↔ s = t ∨ p.contains t := by
  simp [contains]

theorem contains_erase (p : StringPool) (s t : String) :
    (⟨p.counts.erase s⟩ : StringPool).contains t ↔ s ≠ t ∧ p.contains t := by
  simp [contains]

theorem refs_release {n : Nat} (h : p.counts[s]? = some n) (t : String) :
    (p.release ⟨s⟩).2.refs t = if s = t then n - 1 else p.refs t := by
  rw [release, h]
  simp only []
  split
  · exact refs_insert p s t (n - 1)
  · rw [refs_erase]
    split <;> omega

/-- A text stays in the pool as long as it has references. -/
theorem contains_release {n : Nat} (h : p.counts[s]? = some n) (t : String) :
    (p.release ⟨s⟩).2.contains t ↔ if s = t then 1 < n else p.contains t := by
  rw [release, h]
  simp only []
  split
  · next hmore =>
    rw [contains_insert]
    by_cases hst : s = t <;> simp [hst, hmore]
  · next hmore =>
    rw [contains_erase]
    by_cases hst : s = t <;> simp [hst, hmore]

end StringPool

/-! ## The budget and the pool -/

namespace Cache

/-- The charges of the cached items. -/
def held (c : Cache) : Charges := (c.items.toList.map fun e => e.2.charges).sum

/-- The budget and the pool tell of exactly some charges. -/
structure Balances (c : Cache) (M : Charges) : Prop where
  refs : ∀ s, c.strings.refs s = M.count (.text s)
  pooled : ∀ s, c.strings.contains s ↔ 0 < c.strings.refs s
  used : c.budget.used = bytesOf M + c.strings.bytes
  allocations : c.budget.allocations = blocksOf M + c.strings.size
  high : c.budget.used ≤ c.budget.highWatermark
  fits : c.budget.highWatermark ≤ c.budget.total

namespace Balances

variable {c c' : Cache} {M : Charges} {s : String} {size : Nat}

theorem congr (h : c.Balances M) (hbudget : c'.budget = c.budget)
    (hstrings : c'.strings = c.strings) : c'.Balances M where
  refs := by rw [hstrings]; exact h.refs
  pooled := by rw [hstrings]; exact h.pooled
  used := by rw [hbudget, hstrings]; exact h.used
  allocations := by rw [hbudget, hstrings]; exact h.allocations
  high := by rw [hbudget]; exact h.high
  fits := by rw [hbudget]; exact h.fits

theorem some_of_refs (h : c.Balances M) (hrefs : 0 < c.strings.refs s) :
    c.strings.counts[s]? = some (c.strings.refs s) := by
  obtain ⟨n, hn⟩ := StringPool.contains_iff.1 ((h.pooled s).2 hrefs)
  rw [hn, StringPool.refs_of_some hn]

theorem none_of_refs (h : c.Balances M) (hrefs : c.strings.refs s = 0) :
    c.strings.counts[s]? = none := by
  cases hn : c.strings.counts[s]? with
  | none => rfl
  | some n =>
    have := (h.pooled s).1 (StringPool.contains_iff.2 ⟨n, hn⟩)
    omega

/-! ### Blocks -/

theorem refund (h : c.Balances (M + {.block size})) : (c.refund size).Balances M := by
  have hused := h.used
  have hallocations := h.allocations
  have hhigh := h.high
  rw [bytesOf_add, bytesOf_block] at hused
  rw [blocksOf_add, blocksOf_block] at hallocations
  refine ⟨fun s => ?_, h.pooled, ?_, ?_, ?_, h.fits⟩
  · exact (h.refs s).trans (count_text_add_block M size s)
  · change c.budget.used - (size + Budget.overhead) = _ + c.strings.bytes
    omega
  · change c.budget.allocations - 1 = _ + c.strings.size
    omega
  · change c.budget.used - (size + Budget.overhead) ≤ c.budget.highWatermark
    omega

theorem charged (h : c.Balances M) (hfits : c.budget.Fits size) :
    ({ c with budget := c.budget.charge size } : Cache).Balances (M + {.block size}) := by
  have hused := h.used
  have hallocations := h.allocations
  have hhigh := h.high
  have htotal := h.fits
  refine ⟨fun s => ?_, h.pooled, ?_, ?_, Nat.le_max_right _ _, ?_⟩
  · exact (h.refs s).trans (count_text_add_block M size s).symm
  · change c.budget.used + (size + Budget.overhead) = _ + c.strings.bytes
    rw [bytesOf_add, bytesOf_block]
    omega
  · change c.budget.allocations + 1 = _ + c.strings.size
    rw [blocksOf_add, blocksOf_block]
    omega
  · change max c.budget.highWatermark (c.budget.used + (size + Budget.overhead)) ≤ c.budget.total
    exact Nat.max_le.2 ⟨htotal, hfits⟩

theorem refused (h : c.Balances M) (n : Nat) :
    ({ c with budget := { c.budget with refused := n } } : Cache).Balances M :=
  ⟨h.refs, h.pooled, h.used, h.allocations, h.high, h.fits⟩

/-! ### Texts -/

theorem pooled_intern (h : c.Balances M) (s t : String) :
    (c.strings.intern s).2.contains t ↔ 0 < (c.strings.intern s).2.refs t := by
  change (⟨c.strings.counts.insert s _⟩ : StringPool).contains t ↔ _
  rw [StringPool.contains_insert, StringPool.refs_intern, h.pooled]
  by_cases hst : s = t
  · simp [hst]
  · simp [hst]

theorem refs_intern (h : c.Balances M) (s t : String) :
    (c.strings.intern s).2.refs t = (M + {.text s}).count (.text t) := by
  rw [StringPool.refs_intern, count_text_add_text, h.refs]

/-- One more reference to a text that is pooled already. -/
theorem interned (h : c.Balances M) (hin : 0 < c.strings.refs s) :
    ({ c with strings := (c.strings.intern s).2 } : Cache).Balances (M + {.text s}) := by
  have hsome := h.some_of_refs hin
  refine ⟨h.refs_intern s, h.pooled_intern s, ?_, ?_, h.high, h.fits⟩
  · change c.budget.used = _ + (c.strings.intern s).2.bytes
    rw [StringPool.intern, StringPool.bytes_insert, ← StringPool.bytes_of_some hsome, bytesOf_add,
      bytesOf_text]
    exact h.used
  · change c.budget.allocations = _ + (c.strings.intern s).2.size
    rw [StringPool.intern, StringPool.size_insert, ← StringPool.size_of_some hsome, blocksOf_add,
      blocksOf_text]
    exact h.allocations

/-- The first reference to a text, for which its entry was charged. -/
theorem pools (h : c.Balances (M + {.block (StringPool.entryBytes s)}))
    (hout : c.strings.refs s = 0) :
    ({ c with strings := (c.strings.intern s).2 } : Cache).Balances (M + {.text s}) := by
  have herase : (⟨c.strings.counts.erase s⟩ : StringPool) = c.strings :=
    congrArg StringPool.mk (Std.ExtTreeMap.erase_of_none (h.none_of_refs hout))
  have hused := h.used
  have hallocations := h.allocations
  rw [bytesOf_add, bytesOf_block] at hused
  rw [blocksOf_add, blocksOf_block] at hallocations
  refine ⟨fun t => ?_, h.pooled_intern s, ?_, ?_, h.high, h.fits⟩
  · rw [h.refs_intern, count_text_add_text, count_text_add_text, count_text_add_block]
  · change c.budget.used = _ + (c.strings.intern s).2.bytes
    rw [StringPool.intern, StringPool.bytes_insert, herase, bytesOf_add, bytesOf_text, hused]
    omega
  · change c.budget.allocations = _ + (c.strings.intern s).2.size
    rw [StringPool.intern, StringPool.size_insert, herase, blocksOf_add, blocksOf_text, hallocations]
    omega

theorem entryBytes_pos (s : String) : 0 < StringPool.entryBytes s := Nat.succ_pos _

/-- A reference is given back, and the entry with the last one. -/
theorem releaseText (h : c.Balances (M + {.text s})) : (c.releaseText ⟨s⟩).2.Balances M := by
  have hself : c.strings.refs s = M.count (.text s) + 1 := by
    rw [h.refs, count_text_add_text, if_pos rfl]
  have hsome := h.some_of_refs (s := s) (by omega)
  have hstrings : (c.releaseText ⟨s⟩).2.strings = (c.strings.release ⟨s⟩).2 := by
    rw [Cache.releaseText]
    simp only []
    split <;> rfl
  have hrefs : ∀ t, (c.releaseText ⟨s⟩).2.strings.refs t = M.count (.text t) := by
    intro t
    rw [hstrings, StringPool.refs_release hsome, h.refs t, count_text_add_text]
    split
    · next hst => rw [← hst, hself, Nat.add_sub_cancel]
    · rfl
  have hpooled : ∀ t, (c.releaseText ⟨s⟩).2.strings.contains t ↔
      0 < (c.releaseText ⟨s⟩).2.strings.refs t := by
    intro t
    rw [hstrings, StringPool.contains_release hsome, StringPool.refs_release hsome, h.pooled]
    split <;> omega
  have hused := h.used
  have hallocations := h.allocations
  have hhigh := h.high
  rw [bytesOf_add, bytesOf_text, StringPool.bytes_of_some hsome] at hused
  rw [blocksOf_add, blocksOf_text, StringPool.size_of_some hsome] at hallocations
  -- the entry goes with the last reference, and only then is anything given back
  by_cases hmore : 1 < c.strings.refs s
  · have hkept : (c.releaseText ⟨s⟩).2 =
        { c with strings := ⟨c.strings.counts.insert s (c.strings.refs s - 1)⟩ } := by
      rw [Cache.releaseText, StringPool.release, hsome]
      simp only [if_pos hmore, Nat.lt_irrefl, if_false]
    rw [hkept] at hrefs hpooled ⊢
    refine ⟨hrefs, hpooled, ?_, ?_, h.high, h.fits⟩
    · rw [StringPool.bytes_insert, hused]
      omega
    · rw [StringPool.size_insert, hallocations]
      omega
  · have hfreed : (c.releaseText ⟨s⟩).2 =
        ({ c with strings := ⟨c.strings.counts.erase s⟩ } : Cache).refund
          (StringPool.entryBytes s) := by
      rw [Cache.releaseText, StringPool.release, hsome]
      simp only [if_neg hmore, entryBytes_pos, if_true]
    rw [hfreed] at hrefs hpooled ⊢
    refine ⟨hrefs, hpooled, ?_, ?_, ?_, h.fits⟩
    · change c.budget.used - (StringPool.entryBytes s + Budget.overhead) = _ +
        (⟨c.strings.counts.erase s⟩ : StringPool).bytes
      omega
    · change c.budget.allocations - 1 = _ + (⟨c.strings.counts.erase s⟩ : StringPool).size
      omega
    · change c.budget.used - (StringPool.entryBytes s + Budget.overhead) ≤ c.budget.highWatermark
      omega

/-! ### What is given back together -/

/-- What each element of a list holds is given back one by one. -/
theorem freeAll {α : Type} {f : α → Cache → Nat × Cache} {chargesOf : α → Charges}
    (hf : ∀ {c : Cache} {a M}, c.Balances (M + chargesOf a) → (f a c).2.Balances M) (as : List α)
    (h : c.Balances (M + (as.map chargesOf).sum)) : (Cache.freeAll f as c).2.Balances M := by
  induction as generalizing c with
  | nil =>
    rw [List.map_nil, List.sum_nil, add_zero] at h
    exact h
  | cons a as ih =>
    rw [List.map_cons, List.sum_cons, add_comm (chargesOf a), ← add_assoc] at h
    exact ih (hf h)

theorem textCharges_eq_sum (ss : List String) :
    textCharges ss = (ss.map fun s => ({.text s} : Charges)).sum := by
  induction ss with
  | nil => rfl
  | cons s ss ih => rw [textCharges_cons, ih, List.map_cons, List.sum_cons]

theorem chunkCharges_eq_sum (ns : List Nat) :
    chunkCharges ns = (ns.map fun n => ({.block (Chunk.bytes n)} : Charges)).sum := by
  induction ns with
  | nil => rfl
  | cons n ns ih => rw [chunkCharges_cons, ih, List.map_cons, List.sum_cons]

theorem releaseTexts {handles : List Handle}
    (h : c.Balances (M + textCharges (handles.map Handle.content))) :
    (c.releaseTexts handles).2.Balances M := by
  rw [textCharges_eq_sum, List.map_map] at h
  exact h.freeAll (fun h => h.releaseText) handles

theorem releaseValue {v : CachedValue} (h : c.Balances (M + v.toValue.charges)) :
    (c.releaseValue v).2.Balances M := by
  have htexts := v.texts_toValue
  cases v with
  | log entry =>
    rw [Value.charges, htexts, CachedValue.toValue, Value.block, add_comm {_}, ← add_assoc] at h
    exact h.refund.releaseTexts
  | float | str | uint | text =>
    rw [Value.charges_of_ne_log rfl, htexts] at h
    exact h.releaseTexts

/-- **What a history has let go of** is given back. -/
theorem release {gone : Released} (h : c.Balances (M + gone.charges)) :
    (c.release gone).2.Balances M := by
  rw [Released.charges, Released.records, recordCharges, List.map_map, chunkCharges_eq_sum,
    ← add_assoc] at h
  have hrecords := h.freeAll (f := fun (r : CachedRecord) c => c.releaseValue r.value)
    (fun h => h.releaseValue) gone.kept
  exact hrecords.freeAll (f := fun n c => (Chunk.bytes n, c.refund (Chunk.bytes n)))
    (fun h => h.refund) gone.chunks

end Balances

end Cache

end HistoryCache
