import HistoryCache.EntryPool
import HistoryCache.Proofs.Ledger
import Mathlib.Data.List.Dedup

/-!
# Handles and entries

What a pool is after texts were interned and handles given back, in whatever order
(`EntryPool.GivenOut`): it counts the handles that are out, and those that are out for one text are
all for one entry (`EntryPool.Counted`).  A handle that is out keeps its entry in the pool, and an
entry keeps its number, so a text has several entries in the course of time and never two at once.

* `EntryPool.texts_intern`, `EntryPool.texts_release`: the cache's pool does the same, as long as the
  counts fit into 32 bits.
* `EntryPool.GivenOut.pool_follows_handles`: counts, size, entries and what a release gives back are
  all told from the handles that are out, and so is whether there can be one more.
* `EntryPool.GivenOut.count_starts_again`: what an overflow that nobody checks for does.
-/

namespace HistoryCache

namespace EntryPool

variable {p : EntryPool} {s t : String} {e : Entry} {held : List EntryHandle} {a b : EntryHandle}

/-! ## Entry by entry -/

theorem count_of_some (h : p.entries[s]? = some e) : p.count s = e.refs := by
  rw [count, h, Option.elim_some]

theorem count_of_none (h : p.entries[s]? = none) : p.count s = 0 := by
  rw [count, h, Option.elim_none]

theorem refs_of_some (h : p.entries[s]? = some e) : p.refs s = e.refs.toNat := by
  rw [refs, count_of_some h]

theorem refs_of_none (h : p.entries[s]? = none) : p.refs s = 0 := by
  rw [refs, count_of_none h, UInt32.toNat_zero]

/-- One less is counted if there is more than one. -/
theorem toNat_pred {n : UInt32} (h : 1 < n.toNat) : (n - 1).toNat = n.toNat - 1 :=
  UInt32.toNat_sub_of_le _ _ (UInt32.le_iff_toNat_le.2 (Nat.le_of_lt h))

/-- One more is counted if there is room. -/
theorem toNat_count_succ (h : p.refs s + 1 < UInt32.size) : (p.count s + 1).toNat = p.refs s + 1 := by
  rw [UInt32.toNat_add, UInt32.toNat_one]
  exact Nat.mod_eq_of_lt h

theorem contains_iff : p.contains s ↔ ∃ e, p.entries[s]? = some e := by
  rw [contains, Std.ExtTreeMap.contains_eq_isSome_getElem?, Option.isSome_iff_exists]

/-- The number of the entry that a text has, or would get. -/
def numberFor (p : EntryPool) (s : String) : Nat := p.entries[s]?.elim p.made Entry.number

theorem numberFor_of_some (h : p.entries[s]? = some e) : p.numberFor s = e.number := by
  rw [numberFor, h, Option.elim_some]

theorem numberFor_of_none (h : p.entries[s]? = none) : p.numberFor s = p.made := by
  rw [numberFor, h, Option.elim_none]

theorem intern_of_some (h : p.entries[s]? = some e) :
    p.intern s =
      (⟨s, e.number⟩, { p with entries := p.entries.insert s { e with refs := e.refs + 1 } }) := by
  rw [intern, lookup?, h, Option.map_some, Option.getD_some]

theorem intern_of_none (h : p.entries[s]? = none) : p.intern s = p.insert s := by
  rw [intern, lookup?, h, Option.map_none, Option.getD_none]

theorem fst_intern (p : EntryPool) (s : String) : (p.intern s).1 = ⟨s, p.numberFor s⟩ := by
  cases h : p.entries[s]? with
  | none => rw [intern_of_none h, numberFor_of_none h, insert]
  | some e => rw [intern_of_some h, numberFor_of_some h]

theorem entries_intern (p : EntryPool) (s : String) :
    (p.intern s).2.entries = p.entries.insert s ⟨p.numberFor s, p.count s + 1⟩ := by
  cases h : p.entries[s]? with
  | none => rw [intern_of_none h, numberFor_of_none h, count_of_none h, insert]; rfl
  | some e => rw [intern_of_some h, numberFor_of_some h, count_of_some h]

theorem made_le_intern (p : EntryPool) (s : String) : p.made ≤ (p.intern s).2.made := by
  cases h : p.entries[s]? with
  | none => rw [intern_of_none h]; exact Nat.le_succ _
  | some e => rw [intern_of_some h]

/-- An entry stays as it is, or it is the one that was asked for. -/
theorem getElem?_intern (p : EntryPool) (s t : String) :
    (p.intern s).2.entries[t]? =
      if s = t then some ⟨p.numberFor s, p.count s + 1⟩ else p.entries[t]? := by
  rw [entries_intern, Std.ExtTreeMap.getElem?_insert]
  simp only [Std.LawfulEqCmp.compare_eq_iff_eq]

theorem getElem?_release (h : p.entries[a.content]? = some e) (t : String) :
    (p.release a).2.entries[t]? =
      if a.content = t then (if 1 < e.refs.toNat then some { e with refs := e.refs - 1 } else none)
      else p.entries[t]? := by
  rw [release, h]
  simp only [UInt32.lt_iff_toNat_lt, UInt32.toNat_one]
  split
  · rw [Std.ExtTreeMap.getElem?_insert]
    simp only [Std.LawfulEqCmp.compare_eq_iff_eq]
  · rw [Std.ExtTreeMap.getElem?_erase]
    simp only [Std.LawfulEqCmp.compare_eq_iff_eq]

theorem made_release (p : EntryPool) (a : EntryHandle) : (p.release a).2.made = p.made := by
  rw [release]
  split
  · split <;> rfl
  · rfl

/-! ## The pool of the cache -/

theorem getElem?_texts (p : EntryPool) (s : String) :
    p.texts.counts[s]? = p.entries[s]?.map (·.refs.toNat) := by
  rw [texts, Std.ExtTreeMap.getElem?_map]

theorem eq_texts {q : StringPool}
    (h : ∀ s : String, q.counts[s]? = p.entries[s]?.map (·.refs.toNat)) :
    q = p.texts :=
  congrArg StringPool.mk
    (Std.ExtTreeMap.ext_getElem? fun s => (h s).trans (getElem?_texts p s).symm)

theorem texts_refs (p : EntryPool) (s : String) : p.texts.refs s = p.refs s := by
  cases h : p.entries[s]? with
  | none =>
    rw [refs_of_none h, StringPool.refs_of_none (by rw [getElem?_texts, h, Option.map_none])]
  | some e =>
    rw [refs_of_some h,
      StringPool.refs_of_some (n := e.refs.toNat) (by rw [getElem?_texts, h, Option.map_some])]

theorem texts_contains (p : EntryPool) (s : String) : p.texts.contains s ↔ p.contains s := by
  simp only [StringPool.contains_iff, contains_iff, getElem?_texts, Option.map_eq_some_iff]
  exact ⟨fun ⟨_, e, he, _⟩ => ⟨e, he⟩, fun ⟨e, he⟩ => ⟨_, e, he, rfl⟩⟩

theorem texts_size (p : EntryPool) : p.texts.size = p.size := Std.ExtTreeMap.size_map

/-- **The cache's pool takes a reference as this one does.** -/
theorem texts_intern (hroom : p.refs s + 1 < UInt32.size) :
    p.texts.intern s = ((p.intern s).1.text, (p.intern s).2.texts) := by
  refine Prod.ext (by rw [fst_intern]; rfl) (eq_texts fun t => ?_)
  rw [getElem?_intern, StringPool.intern, Std.ExtTreeMap.getElem?_insert, texts_refs,
    getElem?_texts]
  simp only [Std.LawfulEqCmp.compare_eq_iff_eq]
  split
  · rw [Option.map_some, toNat_count_succ hroom]
  · rfl

theorem texts_lookup? (hroom : p.refs s + 1 < UInt32.size) :
    p.texts.lookup? s = (p.lookup? s).map fun r => (r.1.text, r.2.texts) := by
  rw [StringPool.lookup?, texts_intern hroom]
  cases h : p.entries[s]? with
  | none =>
    rw [if_neg, lookup?, h, Option.map_none, Option.map_none]
    rw [texts_contains, contains_iff, h]
    exact fun ⟨_, hsome⟩ => nomatch hsome
  | some e =>
    rw [if_pos ((texts_contains p s).2 (contains_iff.2 ⟨e, h⟩)), intern_of_some h, lookup?, h]
    rfl

/-- **And it gives one back as this one does.** -/
theorem texts_release (p : EntryPool) (a : EntryHandle) :
    p.texts.release a.text = ((p.release a).1, (p.release a).2.texts) := by
  rw [StringPool.release, EntryHandle.text, getElem?_texts]
  cases h : p.entries[a.content]? with
  | none => rw [release, h]; rfl
  | some e =>
    rw [Option.map_some, release, h]
    simp only [UInt32.lt_iff_toNat_lt, UInt32.toNat_one]
    split
    · next hmore =>
      refine Prod.ext rfl (eq_texts fun t => ?_)
      rw [Std.ExtTreeMap.getElem?_insert, Std.ExtTreeMap.getElem?_insert, getElem?_texts]
      split
      · rw [Option.map_some, toNat_pred hmore]
      · rfl
    · refine Prod.ext rfl (eq_texts fun t => ?_)
      rw [Std.ExtTreeMap.getElem?_erase, Std.ExtTreeMap.getElem?_erase, getElem?_texts]
      split <;> rfl

/-! ## The handles that are out -/

/-- What pools come to by interning texts and giving back handles, with the handles that are out. -/
inductive GivenOut : EntryPool → List EntryHandle → Prop
  | empty : GivenOut {} []
  | intern {p q : EntryPool} {held : List EntryHandle} {a : EntryHandle} (h : GivenOut p held)
      (s : String) (hintern : p.intern? s = some (a, q)) : GivenOut q (a :: held)
  | release {p : EntryPool} {held : List EntryHandle} {a : EntryHandle} (h : GivenOut p held)
      (hout : a ∈ held) :
      GivenOut (p.release a).2 (held.erase a)

/-- How many handles to a text are out. -/
def out (held : List EntryHandle) (s : String) : Nat := held.countP (·.content == s)

theorem out_cons (a : EntryHandle) (held : List EntryHandle) (s : String) :
    out (a :: held) s = if a.content = s then out held s + 1 else out held s := by
  rw [out, List.countP_cons]
  simp only [beq_iff_eq]
  split <;> rfl

theorem out_of_mem (h : a ∈ held) (s : String) :
    out held s = if a.content = s then out (held.erase a) s + 1 else out (held.erase a) s := by
  rw [← out_cons]
  exact (List.perm_cons_erase h).countP_eq _

theorem out_pos : 0 < out held s ↔ ∃ a ∈ held, a.content = s := by
  simp only [out, List.countP_pos_iff, beq_iff_eq]

/-- The pool counts the handles that are out, and each is for the entry that its text has now. -/
structure Counted (p : EntryPool) (held : List EntryHandle) : Prop where
  /-- An entry counts its handles, and there is one as long as there are handles. -/
  counts : ∀ (s : String) (e : Entry), p.entries[s]? = some e →
    e.refs.toNat = out held s ∧ 0 < out held s
  pooled : ∀ a ∈ held, ∃ e, p.entries[a.content]? = some e ∧ e.number = a.number
  /-- A number that was given to one entry is not given to another. -/
  apart : ∀ (s t : String) (e f : Entry), p.entries[s]? = some e → p.entries[t]? = some f →
    e.number = f.number → s = t
  made : ∀ (s : String) (e : Entry), p.entries[s]? = some e → e.number < p.made

namespace Counted

theorem refs (h : p.Counted held) (s : String) : p.refs s = out held s := by
  cases he : p.entries[s]? with
  | some e => rw [refs_of_some he, (h.counts s e he).1]
  | none =>
    rw [refs_of_none he]
    refine (Nat.eq_zero_of_not_pos fun hpos => ?_).symm
    obtain ⟨a, ha, rfl⟩ := out_pos.1 hpos
    obtain ⟨e, hsome, -⟩ := h.pooled a ha
    rw [he] at hsome
    cases hsome

theorem contains_iff (h : p.Counted held) : p.contains s ↔ ∃ a ∈ held, a.content = s := by
  rw [EntryPool.contains_iff, ← out_pos]
  constructor
  · rintro ⟨e, he⟩
    exact (h.counts s e he).2
  · intro hpos
    obtain ⟨a, ha, rfl⟩ := out_pos.1 hpos
    obtain ⟨e, he, -⟩ := h.pooled a ha
    exact ⟨e, he⟩

/-- As many texts are pooled as there are among the handles. -/
theorem size (h : p.Counted held) : p.size = (held.map EntryHandle.content).dedup.length := by
  rw [EntryPool.size, ← Std.ExtTreeMap.length_keys]
  refine ((List.perm_ext_iff_of_nodup Std.ExtTreeMap.nodup_keys (List.nodup_dedup _)).2
    fun s => ?_).length_eq
  rw [Std.ExtTreeMap.mem_keys, ← Std.ExtTreeMap.contains_iff_mem, List.mem_dedup, List.mem_map]
  exact h.contains_iff

/-- The last handle to a text gives back what its entry cost. -/
theorem released (h : p.Counted held) (hout : a ∈ held) :
    (p.release a).1 =
      if ∃ b ∈ held.erase a, b.content = a.content then 0 else StringPool.entryBytes a.content := by
  obtain ⟨e, he, -⟩ := h.pooled a hout
  have hcount := (h.counts _ e he).1
  rw [out_of_mem hout, if_pos rfl] at hcount
  rw [release, he]
  simp only [UInt32.lt_iff_toNat_lt, UInt32.toNat_one]
  by_cases hmore : ∃ b ∈ held.erase a, b.content = a.content
  · have := out_pos.2 hmore
    rw [if_pos hmore, if_pos (by omega)]
  · have := mt out_pos.1 hmore
    rw [if_neg hmore, if_neg (by omega)]

theorem empty : Counted {} [] where
  counts s e he := by cases Std.ExtTreeMap.getElem?_empty.symm.trans he
  pooled a ha := nomatch ha
  apart s t e f he := by cases Std.ExtTreeMap.getElem?_empty.symm.trans he
  made s e he := by cases Std.ExtTreeMap.getElem?_empty.symm.trans he

/-- The number that a text gets is below what is made then. -/
theorem numberFor_lt (h : p.Counted held) (s : String) : p.numberFor s < (p.intern s).2.made := by
  cases he : p.entries[s]? with
  | none => rw [numberFor_of_none he, intern_of_none he]; exact Nat.lt_succ_self _
  | some e => rw [numberFor_of_some he, intern_of_some he]; exact h.made s e he

/-- And it is the number of no other text. -/
theorem numberFor_ne (h : p.Counted held) (he : p.entries[t]? = some e) (hne : s ≠ t) :
    e.number ≠ p.numberFor s := by
  cases hs : p.entries[s]? with
  | none => rw [numberFor_of_none hs]; exact (h.made t e he).ne
  | some f => rw [numberFor_of_some hs]; exact fun hsame => hne (h.apart t s e f he hs hsame).symm

theorem intern (h : p.Counted held) (hroom : p.refs s + 1 < UInt32.size) :
    (p.intern s).2.Counted ((p.intern s).1 :: held) where
  counts t e he := by
    rw [fst_intern, out_cons]
    rw [getElem?_intern] at he
    split at he
    · next hst =>
      cases he
      subst hst
      rw [if_pos rfl, toNat_count_succ hroom, h.refs]
      exact ⟨rfl, Nat.succ_pos _⟩
    · next hst => rw [if_neg hst]; exact h.counts t e he
  pooled a ha := by
    rw [getElem?_intern]
    rcases List.mem_cons.1 ha with rfl | ha
    · rw [fst_intern, if_pos rfl]
      exact ⟨_, rfl, rfl⟩
    · obtain ⟨e, he, hnumber⟩ := h.pooled a ha
      split
      · next hs => subst hs; exact ⟨_, rfl, (numberFor_of_some he).trans hnumber⟩
      · exact ⟨e, he, hnumber⟩
  apart t u e f he hf hsame := by
    rw [getElem?_intern] at he hf
    split at he <;> split at hf
    · next ht hu => exact ht.symm.trans hu
    · next hu => cases he; exact absurd hsame.symm (h.numberFor_ne hf hu)
    · next ht _ => cases hf; exact absurd hsame (h.numberFor_ne he ht)
    · exact h.apart t u e f he hf hsame
  made t e he := by
    rw [getElem?_intern] at he
    split at he
    · cases he; exact h.numberFor_lt s
    · exact (h.made t e he).trans_le (made_le_intern p s)

/-- What is left of the entries when a handle is given back. -/
theorem of_release (h : p.Counted held) (hout : a ∈ held) (s : String) {e : Entry}
    (he : (p.release a).2.entries[s]? = some e) :
    ∃ f, p.entries[s]? = some f ∧ e.number = f.number ∧
      e.refs.toNat = out (held.erase a) s ∧ 0 < out (held.erase a) s := by
  obtain ⟨f, hf, -⟩ := h.pooled a hout
  rw [getElem?_release hf] at he
  split at he
  · next hs =>
    subst hs
    split at he
    · next hmore =>
      cases he
      have hcount := (h.counts _ f hf).1
      rw [out_of_mem hout, if_pos rfl] at hcount
      refine ⟨f, hf, rfl, ?_, by omega⟩
      show (f.refs - 1).toNat = _
      rw [toNat_pred hmore]
      omega
    · cases he
  · next hs =>
    obtain ⟨hcount, hpos⟩ := h.counts s e he
    rw [out_of_mem hout, if_neg hs] at hcount hpos
    exact ⟨e, he, rfl, hcount, hpos⟩

theorem release (h : p.Counted held) (hout : a ∈ held) :
    (p.release a).2.Counted (held.erase a) where
  counts s e he := by
    obtain ⟨_, _, _, hcount⟩ := h.of_release hout s he
    exact hcount
  pooled b hb := by
    obtain ⟨e, he, hnumber⟩ := h.pooled b (List.mem_of_mem_erase hb)
    obtain ⟨f, hf, -⟩ := h.pooled a hout
    rw [getElem?_release hf]
    split
    · next hs =>
      have hcount := (h.counts _ f hf).1
      have hleft := out_pos.2 ⟨b, hb, hs.symm⟩
      rw [out_of_mem hout, if_pos rfl] at hcount
      rw [← hs, hf] at he
      cases he
      rw [if_pos (by omega)]
      exact ⟨_, rfl, hnumber⟩
    · exact ⟨e, he, hnumber⟩
  apart s t e f he hf hsame := by
    obtain ⟨e', he', hnumber, _⟩ := h.of_release hout s he
    obtain ⟨f', hf', hnumber', _⟩ := h.of_release hout t hf
    exact h.apart s t e' f' he' hf' (hnumber.symm.trans (hsame.trans hnumber'))
  made s e he := by
    obtain ⟨e', he', hnumber, _⟩ := h.of_release hout s he
    rw [hnumber, made_release]
    exact h.made s e' he'

end Counted

/-- There is a handle exactly if the count has room for it. -/
theorem intern?_eq_some {q : EntryPool} :
    p.intern? s = some (a, q) ↔ p.refs s + 1 < UInt32.size ∧ p.intern s = (a, q) := by
  rw [intern?]
  split
  · next hroom => exact ⟨fun h => ⟨hroom, Option.some.inj h⟩, fun h => congrArg some h.2⟩
  · next hfull => exact ⟨fun h => (by cases h), fun h => absurd h.1 hfull⟩

namespace GivenOut

theorem counted (h : p.GivenOut held) : p.Counted held := by
  induction h with
  | empty => exact .empty
  | intern _ s hintern ih =>
    obtain ⟨hroom, hinterned⟩ := intern?_eq_some.1 hintern
    have hcounted := ih.intern hroom
    rw [hinterned] at hcounted
    exact hcounted
  | release _ hout ih => exact ih.release hout

/-- One more handle is given out. -/
theorem one_more (h : p.GivenOut held) (s : String) (hroom : out held s + 1 < UInt32.size) :
    (p.intern s).2.GivenOut ((p.intern s).1 :: held) :=
  h.intern s (intern?_eq_some.2 ⟨by rwa [h.counted.refs], rfl⟩)

end GivenOut

namespace GivenOut

/-- As many handles to a text can be out as 32 bits can count. -/
theorem exists_out (s : String) {n : Nat} (hn : n < UInt32.size) :
    ∃ p held, GivenOut p held ∧ out held s = n := by
  induction n with
  | zero => exact ⟨{}, [], .empty, rfl⟩
  | succ n ih =>
    obtain ⟨p, held, h, hout⟩ := ih (Nat.lt_of_succ_lt hn)
    refine ⟨_, _, h.one_more s (by rwa [hout]), ?_⟩
    rw [fst_intern, out_cons, if_pos rfl, hout]

/-- **Without overflow checks** the count starts again from 0 with one handle more than 32 bits can
count.  Whichever is given back next takes the entry with it, and the others are left without one. -/
theorem count_starts_again (s : String) : ∃ p held, GivenOut p held ∧ out held s + 1 = 2 ^ 32 ∧
    p.intern? s = none ∧ (p.intern s).2.refs s = 0 ∧
    ∀ a, a.content = s → ((p.intern s).2.release a).1 = StringPool.entryBytes s ∧
      ¬ ((p.intern s).2.release a).2.contains s := by
  obtain ⟨p, held, h, hout⟩ := exists_out s (n := UInt32.size - 1) (by decide)
  have hrefs : p.refs s + 1 = UInt32.size := by
    rw [h.counted.refs, hout]
    rfl
  have hcount : (p.count s + 1).toNat = 0 := by
    rw [UInt32.toNat_add, UInt32.toNat_one, ← refs, hrefs]
    exact Nat.mod_self _
  have hentry : (p.intern s).2.entries[s]? = some ⟨p.numberFor s, p.count s + 1⟩ := by
    rw [getElem?_intern, if_pos rfl]
  refine ⟨p, held, h, by rw [hout]; rfl, ?_, ?_, ?_⟩
  · rw [intern?, hrefs, if_neg (Nat.lt_irrefl _)]
  · rw [refs_of_some hentry]
    exact hcount
  · rintro a rfl
    refine ⟨?_, ?_⟩
    · rw [EntryPool.release, hentry]
      simp only [UInt32.lt_iff_toNat_lt, UInt32.toNat_one, hcount]
      rfl
    · rw [contains_iff, getElem?_release hentry, if_pos rfl]
      simp only [hcount]
      exact fun ⟨_, hsome⟩ => nomatch hsome

end GivenOut

end EntryPool

end HistoryCache
