import HistoryCache.Proofs.Representation

/-!
# Positions in a history

The place of a record is a chunk and a slot in it, and its index is the number of records below it.
In a well formed list of chunks a search for a time ends at the place of the last record that is not
later (`History.LastUpTo`), going back from there runs through the flat list down to its first record,
and the count of the records that are not later is right up to its limit
(`History.Represents.search`).
-/

namespace HistoryCache

/-- In the order of time, the records that are not later come first. -/
theorem InOrder.time_le_iff {rs : List Record} (ho : InOrder rs) {t : Timestamp} {k : Nat}
    {r : Record} (hr : rs[k]? = some r) :
    r.time ≤ t ↔ k < rs.countP fun x => decide (x.time ≤ t) := by
  induction rs generalizing k with
  | nil => cases hr
  | cons a rs ih =>
    obtain ⟨ha, ho⟩ := List.pairwise_cons.1 ho
    by_cases hat : a.time ≤ t
    · rw [List.countP_cons_of_pos (by simpa using hat)]
      cases k with
      | zero =>
        cases hr
        simp [hat]
      | succ k =>
        rw [List.getElem?_cons_succ] at hr
        rw [ih ho hr]
        omega
    · -- The first record is later, and so are all.
      have hlater : ∀ x ∈ a :: rs, ¬ x.time ≤ t := by
        intro x hx hxt
        rcases List.mem_cons.1 hx with rfl | hx
        · exact hat hxt
        · exact hat (Timestamp.le_trans (ha x hx) hxt)
      have hzero : (a :: rs).countP (fun x => decide (x.time ≤ t)) = 0 := by
        rw [List.countP_eq_zero]
        simpa using hlater
      rw [hzero]
      simpa using hlater r (List.mem_of_getElem? hr)

theorem getElem?_filterMap_of_isSome {α β : Type} {f : α → Option β} {l : List α}
    (h : ∀ a ∈ l, (f a).isSome) (k : Nat) : (l.filterMap f)[k]? = l[k]?.bind f := by
  induction l generalizing k with
  | nil => rfl
  | cons a l ih =>
    obtain ⟨b, hb⟩ := Option.isSome_iff_exists.1 (h a List.mem_cons_self)
    rw [List.filterMap_cons_some hb]
    cases k with
    | zero => rw [List.getElem?_cons_zero, List.getElem?_cons_zero, Option.bind_some, hb]
    | succ k =>
      rw [List.getElem?_cons_succ, List.getElem?_cons_succ]
      exact ih (fun a ha => h a (List.mem_cons_of_mem _ ha)) k

namespace History

/-- At the place `p` lies the record of index `k`, and it is the last one that is not later than
`t`. -/
structure LastUpTo (h : History) (t : Timestamp) (k : Nat) (p : Spot) : Prop where
  place : h.spots[k]? = some p
  record : h.record? p = h.records[k]?
  upTo : ∃ r, h.records[k]? = some r ∧ r.time ≤ t
  later : ∀ j r, k < j → h.records[j]? = some r → ¬ r.time ≤ t

variable {h : History} {t : Timestamp} {k : Nat} {p : Spot}

/-- The index of the last record tells how many are not later. -/
theorem LastUpTo.countP_eq (hp : h.LastUpTo t k p) (ho : InOrder h.records) :
    (h.records.countP fun r => decide (r.time ≤ t)) = k + 1 := by
  obtain ⟨r, hr, hrt⟩ := hp.upTo
  have hlow := (ho.time_le_iff hr).1 hrt
  by_contra hne
  have hlength := List.countP_le_length (p := fun r => decide (r.time ≤ t)) (l := h.records)
  obtain ⟨s, hs⟩ : ∃ s, h.records[k + 1]? = some s :=
    ⟨_, List.getElem?_eq_getElem (by omega)⟩
  exact hp.later (k + 1) s (Nat.lt_succ_self k) hs ((ho.time_le_iff hs).2 (by omega))

namespace Tidy

/-- A spot holds the record of its index. -/
theorem record?_eq (ht : h.Tidy) (hp : h.spots[k]? = some p) : h.record? p = h.records[k]? := by
  rw [records_eq, getElem?_filterMap_of_isSome ht.isSome_spot, hp, Option.bind_some]
  exact History.record?_eq h p (ht.shaped.mem_spots.1 (List.mem_of_getElem? hp))

/-- The spots up to a time are as many as the records. -/
theorem spotsUpTo_eq_take (ht : h.Tidy) (ho : InOrder h.records) (t : Timestamp) :
    h.spotsUpTo t = h.spots.take (h.records.countP fun r => decide (r.time ≤ t)) := by
  rw [← ht.length_spotsUpTo ho]
  exact List.prefix_iff_eq_take.1 (List.takeWhile_prefix _)

/-- A search ends at the place of the last record that is not later. -/
theorem position?_eq_some_iff (ht : h.Tidy) (ho : InOrder h.records) :
    h.position? t = some p ↔ ∃ k, h.LastUpTo t k p := by
  have hlength := List.countP_le_length (p := fun r => decide (r.time ≤ t)) (l := h.records)
  rw [ht.length_records, ht.size] at hlength
  rw [ht.position?_eq ho, ht.spotsUpTo_eq_take ho, List.getLast?_take]
  constructor
  · intro hlast
    split at hlast
    · cases hlast
    · next hpos =>
      rw [List.getElem?_eq_getElem (by omega), Option.some_or] at hlast
      have hplace := (List.getElem?_eq_getElem (l := h.spots) (by omega)).trans hlast
      have hrecord := ht.record?_eq hplace
      obtain ⟨r, hr⟩ : ∃ r, h.records[(h.records.countP fun r => decide (r.time ≤ t)) - 1]? = some r :=
        ⟨_, List.getElem?_eq_getElem (by rw [ht.length_records, ht.size]; omega)⟩
      refine ⟨_, hplace, hrecord, ⟨r, hr, (ho.time_le_iff hr).2 (by omega)⟩, ?_⟩
      intro j s hj hs hst
      have := (ho.time_le_iff hs).1 hst
      omega
  · rintro ⟨k, hk⟩
    rw [hk.countP_eq ho, if_neg (Nat.succ_ne_zero k), Nat.add_sub_cancel, hk.place, Option.some_or]

/-- There is no position exactly if all records are later. -/
theorem position?_eq_none_iff (ht : h.Tidy) (ho : InOrder h.records) :
    h.position? t = none ↔ ∀ r ∈ h.records, ¬ r.time ≤ t := by
  rw [ht.position?_eq ho, List.getLast?_eq_none_iff, ← List.length_eq_zero_iff,
    ht.length_spotsUpTo ho, List.countP_eq_zero]
  simp only [decide_eq_true_eq]

/-- Going back from a place visits the places below it and yields their records, newest first. -/
theorem back_eq_take (ht : h.Tidy) (hp : h.spots[k]? = some p) :
    Visits h.before? (some p) (h.spots.take (k + 1)).reverse ∧
      h.back p = (h.records.take (k + 1)).reverse := by
  obtain ⟨hk, hkp⟩ := List.getElem?_eq_some_iff.1 hp
  have htake : h.spots.take (k + 1) = h.spots.take k ++ [p] := by
    rw [List.take_add_one, hp]
    rfl
  have hsplit : h.spots = h.spots.take k ++ p :: h.spots.drop (k + 1) := by
    rw [← hkp, List.getElem_cons_drop, List.take_append_drop]
  refine ⟨?_, ?_⟩
  · rw [htake, List.reverse_concat]
    exact ht.shaped.visits_before_spot hsplit
  · rw [ht.back_eq hsplit, ← htake]
    have hprefix : (h.spots.take (k + 1)).filterMap h.spot? <+: h.records := by
      rw [records_eq]
      exact (List.take_prefix _ _).filterMap _
    have hlength : ((h.spots.take (k + 1)).filterMap h.spot?).length = k + 1 := by
      rw [List.filterMap_length_eq_length.2, List.length_take]
      · omega
      · exact fun q hq => ht.isSome_spot q (List.mem_of_mem_take hq)
    rw [List.prefix_iff_eq_take.1 hprefix, hlength]

end Tidy

/-- **Search** in a well formed list of chunks is search in its flat list of records. -/
theorem Represents.search {is : List Nat} (hr : h.Represents is) (t : Timestamp) :
    (∀ p, h.position? t = some p ↔ ∃ k, h.LastUpTo t k p) ∧
    (h.position? t = none ↔ ∀ r ∈ h.records, ¬ r.time ≤ t) ∧
    (∀ k p, h.LastUpTo t k p → Visits h.before? (some p) (h.spots.take (k + 1)).reverse ∧
      h.back p = (h.records.take (k + 1)).reverse) ∧
    ∀ limit, min (h.countUpTo t limit) limit =
      min limit (h.records.countP fun r => decide (r.time ≤ t)) := by
  obtain ⟨ht, ho⟩ := hr.sorted
  refine ⟨fun p => ht.position?_eq_some_iff ho, ht.position?_eq_none_iff ho,
    fun k p hp => ht.back_eq_take hp.place, fun limit => ?_⟩
  rw [ht.min_countUpTo ho, Nat.min_comm]

/-- Three records of one time lie in three slots of two chunks, and the oldest chunk begins above its
lowest slot. -/
theorem Represents.search_straddling : ∃ (item : Item) (c : Cache),
    newService.cache.prepend 1000 7 [⟨⟨800, 0⟩, .uint 1⟩, ⟨⟨804, 0⟩, .uint 2⟩, ⟨⟨804, 0⟩, .uint 3⟩,
      ⟨⟨804, 0⟩, .uint 4⟩, ⟨⟨990, 0⟩, .uint 5⟩] (.empty .uint 1000) = (.ok (), item, c) ∧
    item.history.Represents item.history.chunks.forth ∧
    item.history.spots = [⟨2, 1⟩, ⟨1, 0⟩, ⟨1, 1⟩, ⟨0, 0⟩, ⟨0, 1⟩] ∧
    item.history.LastUpTo ⟨900, 0⟩ 3 ⟨0, 0⟩ ∧ item.history.position? ⟨900, 0⟩ = some ⟨0, 0⟩ ∧
    item.history.back ⟨0, 0⟩ = [⟨⟨804, 0⟩, .uint 4⟩, ⟨⟨804, 0⟩, .uint 3⟩, ⟨⟨804, 0⟩, .uint 2⟩,
      ⟨⟨800, 0⟩, .uint 1⟩] ∧
    item.history.position? ⟨799, 5⟩ = none ∧ min (item.history.countUpTo ⟨900, 0⟩ 3) 3 = 3 := by
  generalize hprepend : newService.cache.prepend 1000 7 [⟨⟨800, 0⟩, .uint 1⟩, ⟨⟨804, 0⟩, .uint 2⟩,
    ⟨⟨804, 0⟩, .uint 3⟩, ⟨⟨804, 0⟩, .uint 4⟩, ⟨⟨990, 0⟩, .uint 5⟩] (.empty .uint 1000) = prepended
  obtain ⟨result, item, c⟩ := prepended
  have hvalues : (result, item.history.spots, item.history.records) = (.ok (),
      [⟨2, 1⟩, ⟨1, 0⟩, ⟨1, 1⟩, ⟨0, 0⟩, ⟨0, 1⟩], [⟨⟨800, 0⟩, .uint 1⟩, ⟨⟨804, 0⟩, .uint 2⟩,
        ⟨⟨804, 0⟩, .uint 3⟩, ⟨⟨804, 0⟩, .uint 4⟩, ⟨⟨990, 0⟩, .uint 5⟩]) := by
    rw [← congrArg (fun x => (x.1, x.2.1.history.spots, x.2.1.history.records)) hprepend]
    cbv
  simp only [Prod.mk.injEq] at hvalues
  obtain ⟨rfl, hspots, hrecords⟩ := hvalues
  obtain ⟨g, -, rfl, htidy, -⟩ := Cache.prepend_spec Tidy.empty (by unfold InOrder; decide) hprepend
  have hsorted : g.Sorted := ⟨htidy, by rw [hrecords, InOrder]; decide⟩
  have hlast : g.LastUpTo ⟨900, 0⟩ 3 ⟨0, 0⟩ := by
    refine ⟨by rw [hspots]; rfl, htidy.record?_eq (by rw [hspots]; rfl), ?_, fun j r hj hr => ?_⟩
    · rw [hrecords]
      exact ⟨_, rfl, by decide⟩
    · rw [hrecords] at hr
      obtain ⟨j, rfl⟩ := Nat.exists_eq_add_of_le' hj
      cases j with
      | zero =>
        cases hr
        decide
      | succ j => cases hr
  obtain ⟨hfound, -, hback, hcount⟩ := hsorted.represents.search ⟨900, 0⟩
  obtain ⟨-, hnone, -⟩ := hsorted.represents.search ⟨799, 5⟩
  refine ⟨_, c, rfl, hsorted.represents, hspots, hlast, (hfound _).2 ⟨3, hlast⟩, ?_, ?_, ?_⟩
  · rw [(hback _ _ hlast).2, hrecords]
    rfl
  · rw [hnone, hrecords]
    decide
  · rw [hcount, hrecords]
    decide

end History

end HistoryCache
