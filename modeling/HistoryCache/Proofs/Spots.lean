import HistoryCache.History
import HistoryCache.Proofs.Arena

/-!
# Spots of a history

A history is looked at as the row of its spots from the oldest to the newest (`History.spots`) with
what each of them holds (`History.spot?`).

* `History.Shaped`: the chunks are linked, none is empty, and slots are free only below the records
  of the oldest chunk and above those of the newest.
* `History.Tidy`: in addition, the spots of the row hold records, no other slot does, and the size is
  their number.
* `Shaped.visits_before`: going back from a spot visits the spots below it, newest first.
-/

namespace HistoryCache

namespace History

/-! ## Chunks -/

theorem chunk?_modify (h : History) (i j : Nat) (f : Chunk → Chunk) :
    (h.modify i f).chunk? j = if i = j then (h.chunk? j).map f else h.chunk? j :=
  Arena.get?_modify h.chunks i j f

theorem chunk?_modify_self {h : History} {i : Nat} {c : Chunk} (hc : h.chunk? i = some c)
    (f : Chunk → Chunk) : (h.modify i f).chunk? i = some (f c) := by
  rw [chunk?_modify, if_pos rfl, hc, Option.map_some]

theorem chunk?_modify_of_ne {h : History} {i j : Nat} (hij : i ≠ j) (f : Chunk → Chunk) :
    (h.modify i f).chunk? j = h.chunk? j := by
  rw [chunk?_modify, if_neg hij]

/-- What a slot holds, whether it is in use or not. -/
def spot? (h : History) (p : Spot) : Option Record := (h.chunk? p.chunk).bind fun c => c.slot? p.slot

/-- The spots in use in the chunk at a place. -/
def spotsAt (h : History) (i : Nat) : List Spot :=
  (h.chunk? i).elim [] fun c => (List.range' c.start c.size).map (Spot.mk i)

/-- The spots in use, from the oldest to the newest. -/
def spots (h : History) : List Spot := h.chunks.forth.flatMap h.spotsAt

theorem spotsAt_eq {h : History} {i : Nat} {c : Chunk} (hc : h.chunk? i = some c) :
    h.spotsAt i = (List.range' c.start c.size).map (Spot.mk i) := by
  rw [spotsAt, hc, Option.elim_some]

theorem flatMap_spotsAt_congr {g h : History} {is : List Nat}
    (hc : ∀ i ∈ is, g.chunk? i = h.chunk? i) : is.flatMap g.spotsAt = is.flatMap h.spotsAt := by
  apply List.flatMap_congr
  intro i hi
  rw [spotsAt, hc i hi, spotsAt]

theorem mem_spotsAt {h : History} {i : Nat} {p : Spot} :
    p ∈ h.spotsAt i ↔
      p.chunk = i ∧ ∃ c, h.chunk? i = some c ∧ c.start ≤ p.slot ∧ p.slot < c.stop := by
  cases hc : h.chunk? i with
  | none => simp [spotsAt, hc]
  | some c =>
    rw [spotsAt_eq hc, List.mem_map]
    constructor
    · rintro ⟨k, hk, rfl⟩
      rw [List.mem_range'_1, Chunk.size] at hk
      refine ⟨rfl, c, rfl, hk.1, ?_⟩
      change k < c.stop
      omega
    · rintro ⟨rfl, _, ⟨⟩, h1, h2⟩
      refine ⟨p.slot, ?_, rfl⟩
      rw [List.mem_range'_1, Chunk.size]
      omega

/-- The records are what the spots hold. -/
theorem records_eq (h : History) : h.records = h.spots.filterMap h.spot? := by
  rw [records, spots, List.filterMap_flatMap]
  congr 1
  funext i
  cases hc : h.chunk? i with
  | none => simp [spotsAt, hc]
  | some c =>
    rw [spotsAt_eq hc, Option.elim_some, Chunk.records, List.filterMap_map]
    congr 1
    funext k
    simp [spot?, hc]

theorem record?_eq (h : History) (p : Spot) (hp : p ∈ h.spotsAt p.chunk) :
    h.record? p = h.spot? p := by
  obtain ⟨-, c, hc, h1, h2⟩ := mem_spotsAt.1 hp
  simp [record?, spot?, hc, Chunk.record?, h1, h2]

/-! ## Shape -/

/-- The chunks are linked along `is`, none is empty, and slots are free only below the records of the
oldest and above those of the newest. -/
structure Shaped (h : History) (is : List Nat) : Prop where
  linked : h.chunks.Linked is
  filled : ∀ {i c}, h.chunk? i = some c → c.start < c.stop
  fits : ∀ {i c}, h.chunk? i = some c → c.stop ≤ c.capacity
  low : ∀ i ∈ is.tail, ∀ c, h.chunk? i = some c → c.start = 0
  high : ∀ i ∈ is.dropLast, ∀ c, h.chunk? i = some c → c.stop = c.capacity

namespace Shaped

variable {h : History} {is : List Nat}

theorem exists_chunk (hs : h.Shaped is) {i : Nat} (hi : i ∈ is) : ∃ c, h.chunk? i = some c :=
  Option.isSome_iff_exists.1 (hs.linked.get?_isSome_iff.2 hi)

theorem mem_of_chunk (hs : h.Shaped is) {i : Nat} {c : Chunk} (hc : h.chunk? i = some c) :
    i ∈ is :=
  hs.linked.get?_isSome_iff.1 (by rw [show h.chunks.get? i = some c from hc]; rfl)

theorem spots_eq (hs : h.Shaped is) : h.spots = is.flatMap h.spotsAt := by
  rw [spots, hs.linked.forth_eq]

theorem mem_spots (hs : h.Shaped is) {p : Spot} : p ∈ h.spots ↔ p ∈ h.spotsAt p.chunk := by
  rw [hs.spots_eq, List.mem_flatMap]
  constructor
  · rintro ⟨i, -, hp⟩
    obtain ⟨rfl, -⟩ := mem_spotsAt.1 hp
    exact hp
  · intro hp
    obtain ⟨-, c, hc, -⟩ := mem_spotsAt.1 hp
    exact ⟨p.chunk, hs.mem_of_chunk hc, hp⟩

theorem nodup_spots (hs : h.Shaped is) : h.spots.Nodup := by
  rw [hs.spots_eq]
  refine List.nodup_flatMap.2 ⟨fun i _ => ?_, hs.linked.nodup.imp ?_⟩
  · cases hc : h.chunk? i with
    | none => simp [spotsAt, hc]
    | some c =>
      rw [spotsAt_eq hc]
      exact List.Nodup.map (fun a b hab => (Spot.mk.inj hab).2) List.nodup_range'
  · intro i j hij p hi hj
    exact hij ((mem_spotsAt.1 hi).1.symm.trans (mem_spotsAt.1 hj).1)

/-- The spots of the oldest chunk come first. -/
theorem spotsAt_first (hs : h.Shaped is) {i : Nat} {c : Chunk} (hc : h.chunk? i = some c) :
    h.spotsAt i = ⟨i, c.start⟩ :: (List.range' (c.start + 1) (c.size - 1)).map (Spot.mk i) := by
  have hlt := hs.filled hc
  rw [spotsAt_eq hc, show c.size = c.size - 1 + 1 by rw [Chunk.size]; omega, List.range'_succ]
  rfl

theorem spotsAt_last (hs : h.Shaped is) {i : Nat} {c : Chunk} (hc : h.chunk? i = some c) :
    h.spotsAt i = (List.range' c.start (c.size - 1)).map (Spot.mk i) ++ [⟨i, c.stop - 1⟩] := by
  have hlt := hs.filled hc
  rw [spotsAt_eq hc, show c.size = c.size - 1 + 1 by rw [Chunk.size]; omega, List.range'_1_concat,
    List.map_append]
  simp only [List.map_cons, List.map_nil, Nat.add_sub_cancel]
  rw [show c.start + (c.size - 1) = c.stop - 1 by rw [Chunk.size]; omega]

theorem empty : ({} : History).Shaped [] where
  linked := Arena.Linked.empty
  filled h := by simp [chunk?, Arena.get?, Arena.node?] at h
  fits h := by simp [chunk?, Arena.get?, Arena.node?] at h
  low i hi := absurd hi List.not_mem_nil
  high i hi := absurd hi List.not_mem_nil

/-- Going back from a spot visits the spots below it. -/
theorem visits_before (hs : h.Shaped is) {js : List Nat} :
    ∀ {ks : List Nat} {i : Nat} {c : Chunk} {n : Nat}, is = js ++ i :: ks → h.chunk? i = some c →
      c.start + n < c.stop →
      Visits h.before? (some ⟨i, c.start + n⟩)
        (js.flatMap h.spotsAt ++ (List.range' c.start (n + 1)).map (Spot.mk i)).reverse := by
  induction js using List.reverseRecOn with
  | nil =>
    intro ks i c n hsplit hc
    induction n with
    | zero =>
      intro hn
      refine ⟨rfl, ?_⟩
      have hprev := hs.linked.prev?_eq hsplit
      simp [before?, hc, hprev, Visits]
    | succ n ih =>
      intro hn
      rw [List.range'_1_concat, List.map_append, ← List.append_assoc, List.reverse_append]
      refine ⟨rfl, ?_⟩
      have hb : h.before? ⟨i, c.start + (n + 1)⟩ = some ⟨i, c.start + n⟩ := by
        simp [before?, hc, Nat.add_sub_assoc]
      rw [hb]
      exact ih (by omega)
  | append_singleton js j ih =>
    intro ks i c n hsplit hc
    induction n with
    | zero =>
      intro hn
      obtain ⟨d, hd⟩ := hs.exists_chunk (i := j) (by rw [hsplit]; simp)
      have hlt := hs.filled hd
      rw [List.range'_one, List.reverse_append]
      refine ⟨rfl, ?_⟩
      have hprev := hs.linked.prev?_eq hsplit
      rw [List.getLast?_concat] at hprev
      have hb : h.before? ⟨i, c.start + 0⟩ = some ⟨j, d.start + (d.size - 1)⟩ := by
        have he : d.isEmpty = false := by simp [Chunk.isEmpty]; omega
        simp [before?, hc, hprev, hd, he]
        rw [Chunk.size]
        omega
      rw [Nat.add_zero] at hb
      change Visits h.before? (h.before? ⟨i, c.start⟩) ((js ++ [j]).flatMap h.spotsAt).reverse
      rw [hb, List.flatMap_append, List.flatMap_singleton, spotsAt_eq hd]
      have hsplit' : is = js ++ j :: i :: ks := by simpa using hsplit
      have := @ih (i :: ks) j d (d.size - 1) hsplit' hd (by rw [Chunk.size]; omega)
      rwa [show d.size - 1 + 1 = d.size by rw [Chunk.size]; omega] at this
    | succ n ihn =>
      intro hn
      rw [List.range'_1_concat, List.map_append, ← List.append_assoc, List.reverse_append]
      refine ⟨rfl, ?_⟩
      have hb : h.before? ⟨i, c.start + (n + 1)⟩ = some ⟨i, c.start + n⟩ := by
        simp [before?, hc, Nat.add_sub_assoc]
      rw [hb]
      exact ihn (by omega)

end Shaped

/-! ## Tidy histories -/

/-- A history in shape, of which exactly the spots in use hold something. -/
structure Tidy (h : History) : Prop where
  shaped : h.Shaped h.chunks.forth
  used : ∀ p, (h.spot? p).isSome ↔ p ∈ h.spots
  size : h.size = h.spots.length

theorem Shaped.forth {h : History} {is : List Nat} (hs : h.Shaped is) :
    h.Shaped h.chunks.forth := by
  rw [hs.linked.forth_eq]
  exact hs

namespace Tidy

variable {h : History}

theorem empty : ({} : History).Tidy where
  shaped := Shaped.empty.forth
  used p := by simp [spot?, chunk?, Arena.get?, Arena.node?, spots, Arena.forth, follow]
  size := rfl

theorem isSome_spot (ht : h.Tidy) : ∀ p ∈ h.spots, (h.spot? p).isSome := fun p => (ht.used p).2

theorem length_records (ht : h.Tidy) : h.records.length = h.size := by
  rw [records_eq, ht.size, List.filterMap_length_eq_length]
  exact ht.isSome_spot

theorem oldest?_eq (ht : h.Tidy) : h.oldest? = h.records.head? := by
  rw [oldest?, ht.shaped.linked.tail, records_eq, ht.shaped.spots_eq]
  have hused := ht.isSome_spot
  rw [ht.shaped.spots_eq] at hused
  cases hi : h.chunks.forth with
  | nil => rfl
  | cons i js =>
    obtain ⟨c, hc⟩ := ht.shaped.exists_chunk (i := i) (by rw [hi]; exact List.mem_cons_self)
    have hlt := ht.shaped.filled hc
    rw [hi, List.flatMap_cons, ht.shaped.spotsAt_first hc] at hused
    obtain ⟨r, hr⟩ := Option.isSome_iff_exists.1 (hused ⟨i, c.start⟩ (by simp))
    have hslot : c.slot? c.start = some r := by simpa [spot?, hc] using hr
    rw [List.flatMap_cons, ht.shaped.spotsAt_first hc, List.cons_append, List.filterMap_cons, hr]
    simp [hc, Chunk.oldest?, Chunk.record?, hlt, hslot]

theorem newest?_eq (ht : h.Tidy) : h.newest? = h.records.getLast? := by
  rw [newest?, ht.shaped.linked.head, records_eq, ht.shaped.spots_eq]
  have hused := ht.isSome_spot
  rw [ht.shaped.spots_eq] at hused
  rcases List.eq_nil_or_concat h.chunks.forth with hi | ⟨js, i, hi⟩
  · rw [hi]
    rfl
  · rw [List.concat_eq_append] at hi
    obtain ⟨c, hc⟩ := ht.shaped.exists_chunk (i := i) (by rw [hi]; simp)
    have hlt := ht.shaped.filled hc
    rw [hi, List.flatMap_append, List.flatMap_singleton, ht.shaped.spotsAt_last hc] at hused
    obtain ⟨r, hr⟩ := Option.isSome_iff_exists.1 (hused ⟨i, c.stop - 1⟩ (by simp))
    have hslot : c.slot? (c.stop - 1) = some r := by simpa [spot?, hc] using hr
    rw [hi, List.flatMap_append, List.flatMap_singleton, ht.shaped.spotsAt_last hc,
      ← List.append_assoc, List.filterMap_append, List.getLast?_append]
    have hstop : c.stop ≠ 0 := by omega
    have hrange : c.start ≤ c.stop - 1 ∧ c.stop - 1 < c.stop := by omega
    simp [hc, hr, Chunk.newest?, Chunk.record?, hstop, hrange, hslot]

theorem isEmpty_iff (ht : h.Tidy) : h.isEmpty ↔ h.records = [] := by
  rw [isEmpty, beq_iff_eq, ht.shaped.linked.count, List.length_eq_zero_iff,
    ← List.head?_eq_none_iff (l := h.records), ← ht.oldest?_eq, oldest?, ht.shaped.linked.tail]
  cases hi : h.chunks.forth with
  | nil => simp
  | cons i js =>
    obtain ⟨c, hc⟩ := ht.shaped.exists_chunk (i := i) (by rw [hi]; exact List.mem_cons_self)
    have hlt := ht.shaped.filled hc
    have hmem : (⟨i, c.start⟩ : Spot) ∈ h.spots :=
      ht.shaped.mem_spots.2 (mem_spotsAt.2 ⟨rfl, c, hc, Nat.le_refl _, hlt⟩)
    have hsome := ht.isSome_spot _ hmem
    simp only [spot?, hc, Option.bind_some] at hsome
    simp [hc, Chunk.oldest?, Chunk.record?, hlt, Option.isSome_iff_ne_none.1 hsome]

end Tidy

end History

end HistoryCache
