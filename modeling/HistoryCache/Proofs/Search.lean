import HistoryCache.Proofs.Chunk
import HistoryCache.Proofs.Spots

/-!
# Search in a history

The walk over the chunks and the search inside one of them agree with the flat list of records, if
that is in the order of time.

* `Tidy.position?_eq`: the position of a time is the spot of the last record that is not later.
* `Tidy.backFrom_eq`: going back from there visits all records that are not later, newest first.
* `Tidy.min_countUpTo`: they are counted right, up to the limit of the count.

Up to a time, the spots make a prefix of the row (`History.spotsUpTo`), so every search is about
where that prefix ends.
-/

namespace HistoryCache

/-- Records in the order of their times. -/
def InOrder (rs : List Record) : Prop := rs.Pairwise fun a b => a.time ≤ b.time

theorem Record.sec_le_of_le {a b : Record} (h : a.time ≤ b.time) : a.sec ≤ b.sec :=
  Timestamp.sec_le_of_le h

theorem InOrder.head_le {rs : List Record} (h : InOrder rs) {oldest : Record}
    (holdest : rs.head? = some oldest) : ∀ x ∈ rs, oldest.time ≤ x.time := by
  obtain ⟨rest, rfl⟩ := List.head?_eq_some_iff.1 holdest
  intro x hx
  rcases List.mem_cons.1 hx with rfl | hx
  · exact Timestamp.le_refl _
  · exact (List.pairwise_cons.1 h).1 x hx

theorem InOrder.le_last {rs : List Record} (h : InOrder rs) {newest : Record}
    (hnewest : rs.getLast? = some newest) : ∀ x ∈ rs, x.time ≤ newest.time := by
  obtain ⟨rest, rfl⟩ := List.getLast?_eq_some_iff.1 hnewest
  intro x hx
  rcases List.mem_append.1 hx with hx | hx
  · exact (List.pairwise_append.1 h).2.2 x hx newest List.mem_cons_self
  · rw [List.mem_singleton.1 hx]
    exact Timestamp.le_refl _

theorem takeWhile_eq_filter_of_pairwise {α : Type} {P : α → Bool} {l : List α}
    (h : l.Pairwise fun a b => P b → P a) : l.takeWhile P = l.filter P := by
  induction l with
  | nil => rfl
  | cons a l ih =>
    obtain ⟨ha, h⟩ := List.pairwise_cons.1 h
    by_cases hP : P a
    · rw [List.takeWhile_cons_of_pos hP, List.filter_cons_of_pos hP, ih h]
    · rw [List.takeWhile_cons_of_neg hP, List.filter_cons_of_neg hP, eq_comm,
        List.filter_eq_nil_iff]
      exact fun b hb hPb => hP (ha b hb hPb)

theorem dropWhile_eq_filter_of_pairwise {α : Type} {P : α → Bool} {l : List α}
    (h : l.Pairwise fun a b => P b → P a) : l.dropWhile P = l.filter fun a => !P a := by
  induction l with
  | nil => rfl
  | cons a l ih =>
    obtain ⟨ha, h⟩ := List.pairwise_cons.1 h
    by_cases hP : P a
    · rw [List.dropWhile_cons_of_pos hP, List.filter_cons_of_neg (by simpa using hP), ih h]
    · rw [List.dropWhile_cons_of_neg hP, eq_comm, List.filter_eq_self]
      intro b hb
      rcases List.mem_cons.1 hb with rfl | hb
      · simpa using hP
      · simpa using fun hPb => hP (ha b hb hPb)

theorem takeWhile_cons_split {α : Type} {P : α → Bool} {as bs : List α} {b : α}
    (h : (as ++ b :: bs).Pairwise fun a b => P b → P a) :
    (as ++ b :: bs).takeWhile P =
      if P b then as ++ b :: bs.takeWhile P else as.takeWhile P := by
  have has : P b → ∀ a ∈ as, P a := fun hb a ha =>
    (List.pairwise_append.1 h).2.2 a ha b List.mem_cons_self hb
  split
  · next hb => rw [List.takeWhile_append_of_pos (has hb), List.takeWhile_cons_of_pos hb]
  · next hb =>
    rw [List.takeWhile_append]
    split
    · next hall =>
      rw [List.takeWhile_cons_of_neg hb, List.append_nil]
      exact ((List.takeWhile_prefix P).eq_of_length hall).symm
    · rfl

theorem takeWhile_range' {P Q : Nat → Bool} {s n : Nat} (h : ∀ k ∈ List.range' s n, P k = Q k) :
    (List.range' s n).takeWhile Q = List.range' s ((List.range' s n).takeWhile P).length := by
  induction n generalizing s with
  | zero => rfl
  | succ n ih =>
    rw [List.range'_succ] at h ⊢
    rw [List.takeWhile_cons, List.takeWhile_cons, h s List.mem_cons_self]
    split
    · rw [ih fun k hk => h k (List.mem_cons_of_mem s hk), List.length_cons, List.range'_succ]
    · rfl

theorem InOrder.upTo {rs : List Record} (h : InOrder rs) (t : Timestamp) :
    rs.Pairwise fun a b => decide (b.time ≤ t) → decide (a.time ≤ t) := by
  refine h.imp fun {a b} hab hb => ?_
  rw [decide_eq_true_iff] at hb ⊢
  exact Timestamp.le_trans hab hb

namespace History

/-- Whether a spot holds nothing from after a time. -/
def isUpTo (h : History) (t : Timestamp) (p : Spot) : Bool :=
  (h.spot? p).all fun r => decide (r.time ≤ t)

/-- The spots of the records at or before a time. -/
def spotsUpTo (h : History) (t : Timestamp) : List Spot := h.spots.takeWhile (h.isUpTo t)

/-- From any spot, going back visits what is below it. -/
theorem Shaped.visits_before_spot {h : History} {is : List Nat} (hs : h.Shaped is)
    {ps qs : List Spot} {p : Spot} (hsplit : h.spots = ps ++ p :: qs) :
    Visits h.before? (some p) (p :: ps.reverse) := by
  have hp : p ∈ h.spots := by
    rw [hsplit]
    exact List.mem_append_right ps List.mem_cons_self
  obtain ⟨-, c, hc, h1, h2⟩ := mem_spotsAt.1 (hs.mem_spots.1 hp)
  obtain ⟨js, ks, his⟩ := List.append_of_mem (hs.mem_of_chunk hc)
  obtain ⟨n, hn⟩ := Nat.exists_eq_add_of_le h1
  have hvisits := hs.visits_before his hc (n := n) (by omega)
  have hrange : List.range' c.start c.size =
      List.range' c.start n ++ (c.start + n) :: List.range' (c.start + n + 1) (c.size - n - 1) := by
    rw [← List.range'_succ, ← hn, show c.size = n + (c.size - n - 1 + 1) by
      rw [Chunk.size]
      omega, ← List.range'_append_1]
    congr 2 <;> omega
  have hspots : h.spots = (js.flatMap h.spotsAt ++ (List.range' c.start n).map (Spot.mk p.chunk)) ++
      p :: ((List.range' (c.start + n + 1) (c.size - n - 1)).map (Spot.mk p.chunk) ++
        ks.flatMap h.spotsAt) := by
    rw [hs.spots_eq, his, List.flatMap_append, List.flatMap_cons, spotsAt_eq hc, hrange, ← hn]
    simp
  have hnodup := hs.nodup_spots
  have hps : ps = js.flatMap h.spotsAt ++ (List.range' c.start n).map (Spot.mk p.chunk) := by
    have heq := hsplit.symm.trans hspots
    rw [hsplit, List.nodup_middle, List.nodup_cons, List.mem_append, not_or] at hnodup
    exact ((List.append_cons_inj_of_notMem hnodup.1.1 hnodup.1.2).1 heq).1
  rw [List.range'_1_concat, List.map_append, ← List.append_assoc, List.reverse_append, ← hps,
    ← hn] at hvisits
  exact hvisits

/-- What the spots up to a time hold. -/
theorem filterMap_spotsUpTo {h : History} (ho : InOrder h.records) (t : Timestamp) :
    (h.spotsUpTo t).filterMap h.spot? = h.records.filter fun r => decide (r.time ≤ t) := by
  rw [← takeWhile_eq_filter_of_pairwise (ho.upTo t), records_eq, List.takeWhile_filterMap]
  rfl

namespace Tidy

variable {h : History}

theorem pairwise_isUpTo (ht : h.Tidy) (ho : InOrder h.records) (t : Timestamp) :
    h.spots.Pairwise fun p q => h.isUpTo t q → h.isUpTo t p := by
  have hpair := ho.upTo t
  rw [records_eq, List.pairwise_filterMap] at hpair
  refine hpair.imp_of_mem fun {p q} hp hq hpq hup => ?_
  obtain ⟨r, hr⟩ := Option.isSome_iff_exists.1 (ht.isSome_spot p hp)
  obtain ⟨r', hr'⟩ := Option.isSome_iff_exists.1 (ht.isSome_spot q hq)
  rw [isUpTo, hr', Option.all_some] at hup
  rw [isUpTo, hr, Option.all_some]
  exact hpq r hr r' hr' hup

theorem length_spotsUpTo (ht : h.Tidy) (ho : InOrder h.records) (t : Timestamp) :
    (h.spotsUpTo t).length = h.records.countP fun r => decide (r.time ≤ t) := by
  rw [List.countP_eq_length_filter, ← filterMap_spotsUpTo ho, eq_comm,
    List.filterMap_length_eq_length]
  exact fun p hp => ht.isSome_spot p ((List.takeWhile_prefix _).subset hp)

/-- The search inside a chunk. -/
theorem position?_chunk (ht : h.Tidy) {i : Nat} {c : Chunk} (hc : h.chunk? i = some c)
    (t : Timestamp) : (c.position? t).map (Spot.mk i) =
      ((h.spotsAt i).takeWhile (h.isUpTo t)).getLast? := by
  have hexact : ∀ k ∈ List.range' c.start c.size,
      (c.slot? k).any (fun r => decide (r.time ≤ t)) = (h.isUpTo t ∘ Spot.mk i) k := by
    intro k hk
    rw [List.mem_range'_1, Chunk.size] at hk
    have hsome := ht.isSome_spot ⟨i, k⟩ (ht.shaped.mem_spots.2
      (mem_spotsAt.2 ⟨rfl, c, hc, hk.1, by change k < c.stop; omega⟩))
    simp only [spot?, hc, Option.bind_some] at hsome
    obtain ⟨r, hr⟩ := Option.isSome_iff_exists.1 hsome
    simp [isUpTo, spot?, hc, hr]
  rw [spotsAt_eq hc, List.takeWhile_map, takeWhile_range' hexact, Chunk.position?]
  generalize ((List.range' c.start c.size).takeWhile
    fun k => (c.slot? k).any fun r => decide (r.time ≤ t)).length = n
  cases n with
  | zero => rfl
  | succ n => simp [List.range'_1_concat]

/-- The oldest record of a chunk tells whether any of its records is not later. -/
theorem any_oldest?_eq (ht : h.Tidy) {i : Nat} {c : Chunk} (hc : h.chunk? i = some c)
    (t : Timestamp) : ((h.chunk? i).bind Chunk.oldest?).any (fun r => decide (r.time ≤ t)) =
      h.isUpTo t ⟨i, c.start⟩ := by
  have hlt := ht.shaped.filled hc
  have hsome := ht.isSome_spot ⟨i, c.start⟩ (ht.shaped.mem_spots.2
    (mem_spotsAt.2 ⟨rfl, c, hc, Nat.le_refl _, hlt⟩))
  simp only [spot?, hc, Option.bind_some] at hsome
  obtain ⟨r, hr⟩ := Option.isSome_iff_exists.1 hsome
  simp [isUpTo, spot?, hc, hr, Chunk.oldest?, Chunk.record?, hlt]

/-- The prefix ends in a chunk that begins in it, if the next chunk does not. -/
theorem spotsUpTo_split (ht : h.Tidy) (ho : InOrder h.records) {t : Timestamp} {js ks : List Nat}
    {i : Nat} {c : Chunk} (hforth : h.chunks.forth = js ++ i :: ks) (hc : h.chunk? i = some c)
    (hi : h.isUpTo t ⟨i, c.start⟩)
    (hks : ∀ k d, ks.head? = some k → h.chunk? k = some d → ¬ h.isUpTo t ⟨k, d.start⟩) :
    h.spotsUpTo t = js.flatMap h.spotsAt ++ (h.spotsAt i).takeWhile (h.isUpTo t) := by
  have hmono := ht.pairwise_isUpTo ho t
  rw [ht.shaped.spots_eq, hforth, List.flatMap_append, List.flatMap_cons,
    ← List.append_assoc] at hmono
  rw [spotsUpTo, ht.shaped.spots_eq, hforth, List.flatMap_append, List.flatMap_cons,
    ← List.append_assoc]
  have hbelow : (js.flatMap h.spotsAt ++ h.spotsAt i).takeWhile (h.isUpTo t) =
      js.flatMap h.spotsAt ++ (h.spotsAt i).takeWhile (h.isUpTo t) := by
    have hmono := (List.pairwise_append.1 hmono).1
    rw [ht.shaped.spotsAt_first hc] at hmono ⊢
    rw [takeWhile_cons_split hmono, if_pos hi, List.takeWhile_cons_of_pos hi]
  cases ks with
  | nil => rw [List.flatMap_nil, List.append_nil, hbelow]
  | cons k ls =>
    obtain ⟨d, hd⟩ := ht.shaped.exists_chunk (i := k) (by rw [hforth]; simp)
    rw [List.flatMap_cons, ht.shaped.spotsAt_first hd, List.cons_append] at hmono ⊢
    rw [takeWhile_cons_split hmono, if_neg (hks k d rfl hd), hbelow]

/-- The prefix ends in the newest chunk whose oldest record is not later. -/
theorem spotsUpTo_eq (ht : h.Tidy) (ho : InOrder h.records) (t : Timestamp) :
    (h.spotsUpTo t = [] ∧ h.position? t = none) ∨
      ∃ js i ks c, h.chunks.forth = js ++ i :: ks ∧ h.chunk? i = some c ∧
        h.spotsUpTo t = js.flatMap h.spotsAt ++ (h.spotsAt i).takeWhile (h.isUpTo t) ∧
        (h.spotsAt i).takeWhile (h.isUpTo t) ≠ [] ∧
        h.position? t = (c.position? t).map (Spot.mk i) := by
  rw [position?, ht.shaped.linked.back_eq]
  cases hfind : h.chunks.forth.reverse.find? fun i =>
      ((h.chunk? i).bind Chunk.oldest?).any fun r => decide (r.time ≤ t) with
  | none =>
    left
    refine ⟨?_, rfl⟩
    rw [spotsUpTo, ht.shaped.spots_eq]
    cases hs : h.chunks.forth with
    | nil => rfl
    | cons i js =>
      rw [List.find?_eq_none, hs] at hfind
      obtain ⟨c, hc⟩ := ht.shaped.exists_chunk (i := i) (by rw [hs]; exact List.mem_cons_self)
      have hnot := hfind i (by simp)
      rw [ht.any_oldest?_eq hc] at hnot
      rw [List.flatMap_cons, ht.shaped.spotsAt_first hc, List.cons_append,
        List.takeWhile_cons_of_neg hnot]
  | some i =>
    right
    obtain ⟨hi, ks, js, hsplit, hks⟩ := List.find?_eq_some_iff_append.1 hfind
    have hforth : h.chunks.forth = js.reverse ++ i :: ks.reverse := by
      rw [← List.reverse_inj, hsplit]
      simp
    obtain ⟨c, hc⟩ := ht.shaped.exists_chunk (i := i) (by rw [hforth]; simp)
    rw [ht.any_oldest?_eq hc] at hi
    refine ⟨js.reverse, i, ks.reverse, c, hforth, hc, ?_, ?_, by simp only [hc, Option.bind_some]⟩
    · refine ht.spotsUpTo_split ho hforth hc hi fun k d hk hd => ?_
      have hnot := hks k (List.mem_reverse.1 (List.mem_of_mem_head? hk))
      rw [ht.any_oldest?_eq hd] at hnot
      simpa using hnot
    · rw [ht.shaped.spotsAt_first hc, List.takeWhile_cons_of_pos hi]
      exact List.cons_ne_nil _ _

/-- **The position of a time** is where the last record lies that is not later. -/
theorem position?_eq (ht : h.Tidy) (ho : InOrder h.records) (t : Timestamp) :
    h.position? t = (h.spotsUpTo t).getLast? := by
  rcases ht.spotsUpTo_eq ho t with ⟨hnil, hp⟩ | ⟨js, i, ks, c, -, hc, hup, hne, hp⟩
  · rw [hnil, hp]
    rfl
  · rw [hup, hp, ht.position?_chunk hc, List.getLast?_append]
    cases hlast : ((h.spotsAt i).takeWhile (h.isUpTo t)).getLast? with
    | none => exact absurd (List.getLast?_eq_none_iff.1 hlast) hne
    | some p => rfl

/-- Going back from a spot visits the records up to it, newest first. -/
theorem back_eq (ht : h.Tidy) {ps qs : List Spot} {p : Spot} (hsplit : h.spots = ps ++ p :: qs) :
    h.back p = ((ps ++ [p]).filterMap h.spot?).reverse := by
  have hvisits := ht.shaped.visits_before_spot hsplit
  rw [back, follow_eq_of_visits hvisits, ← List.filterMap_reverse, List.reverse_concat]
  · refine List.filterMap_congr fun q hq => record?_eq h q (ht.shaped.mem_spots.1 ?_)
    rw [hsplit, List.append_cons]
    rw [← List.reverse_concat, List.mem_reverse] at hq
    exact List.mem_append_left qs hq
  · rw [ht.size, hsplit]
    simp only [List.length_append, List.length_cons, List.length_reverse]
    omega

/-- **Going back from a time** visits the records that are not later, newest first. -/
theorem backFrom_eq (ht : h.Tidy) (ho : InOrder h.records) (t : Timestamp) :
    h.backFrom t = (h.records.filter fun r => decide (r.time ≤ t)).reverse := by
  rw [backFrom, ht.position?_eq ho, ← filterMap_spotsUpTo ho]
  rcases List.eq_nil_or_concat (h.spotsUpTo t) with hnil | ⟨ps, p, hps⟩
  · rw [hnil]
    rfl
  · obtain ⟨qs, hqs⟩ : h.spotsUpTo t <+: h.spots := List.takeWhile_prefix _
    rw [List.concat_eq_append] at hps
    rw [hps, List.append_assoc] at hqs
    rw [hps, List.getLast?_concat, Option.elim_some, ht.back_eq hqs.symm]

theorem min_countChunks (h : History) (limit : Nat) (is : List Nat) (n : Nat) :
    min (h.countChunks limit is n) limit = min (n + (is.flatMap h.spotsAt).length) limit := by
  induction is generalizing n with
  | nil => rfl
  | cons i is ih =>
    rw [countChunks]
    split
    · have hsize : (h.chunk? i).elim 0 Chunk.size = (h.spotsAt i).length := by
        rw [spotsAt]
        cases h.chunk? i <;> simp
      rw [ih, hsize, List.flatMap_cons, List.length_append, Nat.add_assoc]
    · omega

/-- **The count** of the records that are not later is right up to its limit. -/
theorem min_countUpTo (ht : h.Tidy) (ho : InOrder h.records) (t : Timestamp) (limit : Nat) :
    min (h.countUpTo t limit) limit =
      min (h.records.countP fun r => decide (r.time ≤ t)) limit := by
  rw [← ht.length_spotsUpTo ho, countUpTo]
  rcases ht.spotsUpTo_eq ho t with ⟨hnil, hp⟩ | ⟨js, i, ks, c, hforth, hc, hup, hne, hp⟩
  · rw [hnil, hp]
    rfl
  · have hlast := ht.position?_chunk hc t
    rw [spotsAt_eq hc, List.takeWhile_map, takeWhile_range' fun _ _ => rfl] at hlast hup hne
    generalize ((List.range' c.start c.size).takeWhile (h.isUpTo t ∘ Spot.mk i)).length = n
      at hlast hup hne
    cases n with
    | zero => exact absurd rfl hne
    | succ n =>
      rw [List.range'_1_concat, List.map_append, List.map_singleton, List.getLast?_concat] at hlast
      have hback : follow h.chunks.prev? h.length (h.chunks.prev? i) = js.reverse := by
        have hvisits := ht.shaped.linked.visits_back
        rw [hforth, List.reverse_append, List.reverse_cons] at hvisits
        refine follow_eq_of_visits (visits_append hvisits ?_) ?_
        · rw [List.getLast?_concat, Option.elim_some]
        · rw [length, ht.shaped.linked.count, hforth]
          simp only [List.length_append, List.length_reverse]
          omega
      rw [hp, hlast]
      simp only [hc, hback]
      rw [min_countChunks, hup]
      have hperm := ((List.reverse_perm js).flatMap_right h.spotsAt).length_eq
      simp only [List.length_append, List.length_map, List.length_range', hperm]
      congr 1
      omega

/-- There is a position for every time from the oldest record on. -/
theorem position?_isSome (ht : h.Tidy) (ho : InOrder h.records) {r : Record} {t : Timestamp}
    (hr : r ∈ h.records) (hrt : r.time ≤ t) : (h.position? t).isSome := by
  rw [ht.position?_eq ho, Option.isSome_iff_ne_none, Ne, List.getLast?_eq_none_iff]
  intro hnil
  have hmem : r ∈ h.records.filter fun r => decide (r.time ≤ t) :=
    List.mem_filter.2 ⟨hr, decide_eq_true hrt⟩
  rw [← filterMap_spotsUpTo ho, hnil] at hmem
  exact absurd hmem List.not_mem_nil

end Tidy

end History

end HistoryCache
