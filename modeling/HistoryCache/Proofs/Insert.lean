import HistoryCache.Proofs.Search

/-!
# The newest end of a history

A record enters at a slot that was taken into use for it above all others (`History.Opens`).  Put
there, it is the newest (`Opens.put`).  Otherwise the later records first move up by a slot each,
across the chunks, and leave a hole where it belongs (`History.Shifted`), so that the flat list gains
the record at that place and nothing else changes (`Opens.insert`).
-/

namespace HistoryCache

namespace History

/-! ## Changes inside the spots in use -/

theorem chunk?_setSpot (h : History) (p : Spot) (r : Option CachedRecord) (i : Nat) :
    (h.setSpot p r).chunk? i =
      if p.chunk = i then (h.chunk? i).map fun c => c.setSlot p.slot r else h.chunk? i :=
  chunk?_modify h p.chunk i _

theorem spotsAt_setSpot (h : History) (p : Spot) (r : Option CachedRecord) :
    (h.setSpot p r).spotsAt = h.spotsAt := by
  funext i
  rw [spotsAt, chunk?_setSpot, spotsAt]
  split
  · cases h.chunk? i <;> rfl
  · rfl

namespace Shaped

variable {h : History} {is : List Nat}

theorem setSpot (hs : h.Shaped is) (p : Spot) (r : Option CachedRecord) :
    (h.setSpot p r).Shaped is where
  linked := hs.linked.modify p.chunk fun c => c.setSlot p.slot r
  filled {i c} hc := by
    rw [chunk?_setSpot] at hc
    split at hc
    · obtain ⟨d, hd, rfl⟩ := Option.map_eq_some_iff.1 hc
      change d.start < d.stop
      exact hs.filled hd
    · exact hs.filled hc
  fits {i c} hc := by
    rw [chunk?_setSpot] at hc
    split at hc
    · obtain ⟨d, hd, rfl⟩ := Option.map_eq_some_iff.1 hc
      rw [Chunk.capacity_setSlot]
      exact hs.fits hd
    · exact hs.fits hc
  low i hi c hc := by
    rw [chunk?_setSpot] at hc
    split at hc
    · obtain ⟨d, hd, rfl⟩ := Option.map_eq_some_iff.1 hc
      exact hs.low i hi d hd
    · exact hs.low i hi c hc
  high i hi c hc := by
    rw [chunk?_setSpot] at hc
    split at hc
    · obtain ⟨d, hd, rfl⟩ := Option.map_eq_some_iff.1 hc
      rw [Chunk.capacity_setSlot]
      exact hs.high i hi d hd
    · exact hs.high i hi c hc

theorem spots_setSpot (hs : h.Shaped is) (p : Spot) (r : Option CachedRecord) :
    (h.setSpot p r).spots = h.spots := by
  rw [(hs.setSpot p r).spots_eq, hs.spots_eq, spotsAt_setSpot]

theorem spot?_setSpot (hs : h.Shaped is) {p : Spot} (hp : p ∈ h.spots) (r : Option CachedRecord)
    (q : Spot) : (h.setSpot p r).spot? q =
      if p = q then r.map CachedRecord.toRecord else h.spot? q := by
  obtain ⟨-, c, hc, -, hlt⟩ := mem_spotsAt.1 (hs.mem_spots.1 hp)
  have hcap := hs.fits hc
  rw [spot?, chunk?_setSpot, spot?]
  by_cases hi : p.chunk = q.chunk
  · rw [if_pos hi, ← hi, hc, Option.map_some, Option.bind_some, Option.bind_some,
      Chunk.slot?_setSlot (by omega)]
    refine if_congr ⟨fun hk => ?_, fun hpq => by rw [hpq]⟩ rfl rfl
    cases p
    cases q
    simp only [Spot.mk.injEq]
    exact ⟨hi, hk⟩
  · rw [if_neg hi, if_neg]
    rintro rfl
    exact hi rfl

theorem put (hs : h.Shaped is) (p : Spot) (r : CachedRecord) : (h.put p r).Shaped is where
  linked := (hs.setSpot p (some r)).linked
  filled := (hs.setSpot p (some r)).filled
  fits := (hs.setSpot p (some r)).fits
  low := (hs.setSpot p (some r)).low
  high := (hs.setSpot p (some r)).high

/-- A record that is moved leaves its spot free. -/
theorem move (hs : h.Shaped is) {src dst : Spot} (hsrc : src ∈ h.spots) (hdst : dst ∈ h.spots)
    (hsome : (h.spot? src).isSome) :
    (h.move src dst).Shaped is ∧ (h.move src dst).spots = h.spots ∧
      (h.move src dst).size = h.size ∧ ∀ x, (h.move src dst).spot? x =
        if dst = x then h.spot? src else if src = x then none else h.spot? x := by
  obtain ⟨r, hr⟩ := Option.isSome_iff_exists.1 hsome
  obtain ⟨c, hc, hslot⟩ := Option.bind_eq_some_iff.1 hr
  obtain ⟨kept, hkept, rfl⟩ := Option.map_eq_some_iff.1 hslot
  have hmove : h.move src dst = (h.setSpot src none).setSpot dst (some kept) := by
    unfold History.move
    rw [hc, Option.bind_some, hkept]
  have hs' := hs.setSpot src none
  have hdst' : dst ∈ (h.setSpot src none).spots := by rwa [hs.spots_setSpot]
  rw [hmove, hr]
  refine ⟨hs'.setSpot dst (some kept), ?_, rfl, fun x => ?_⟩
  · rw [hs'.spots_setSpot, hs.spots_setSpot]
  · rw [hs'.spot?_setSpot hdst', hs.spot?_setSpot hsrc, Option.map_some, Option.map_none]

end Shaped

/-! ## A slot above the records -/

/-- A history with the slot at `top` taken into use above its records. -/
structure Opens (h : History) (top : Spot) (g : History) : Prop where
  shaped : ∃ is, g.Shaped is
  spots : g.spots = h.spots ++ [top]
  spot : ∀ p, g.spot? p = h.spot? p
  size : g.size = h.size

theorem Shaped.openAbove {h : History} {js : List Nat} {i : Nat} {c : Chunk}
    (hs : h.Shaped (js ++ [i])) (hc : h.chunk? i = some c) (hlt : c.stop < c.capacity) :
    (h.modify i Chunk.openAbove).Shaped (js ++ [i]) := by
  have hcases : ∀ {j d}, (h.modify i Chunk.openAbove).chunk? j = some d →
      i = j ∧ d = c.openAbove ∨ i ≠ j ∧ h.chunk? j = some d := by
    intro j d hd
    by_cases hij : i = j
    · subst hij
      rw [chunk?_modify_self hc] at hd
      cases hd
      exact Or.inl ⟨rfl, rfl⟩
    · rw [chunk?_modify_of_ne hij] at hd
      exact Or.inr ⟨hij, hd⟩
  refine ⟨hs.linked.modify i _, fun {j d} hd => ?_, fun {j d} hd => ?_, fun j hj d hd => ?_,
    fun j hj d hd => ?_⟩
  · rcases hcases hd with ⟨-, rfl⟩ | ⟨-, hd⟩
    · exact Nat.lt_succ_of_lt (hs.filled hc)
    · exact hs.filled hd
  · rcases hcases hd with ⟨-, rfl⟩ | ⟨-, hd⟩
    · exact hlt
    · exact hs.fits hd
  · rcases hcases hd with ⟨rfl, rfl⟩ | ⟨-, hd⟩
    · exact hs.low i hj c hc
    · exact hs.low j hj d hd
  · rcases hcases hd with ⟨rfl, -⟩ | ⟨-, hd⟩
    · rw [List.dropLast_concat] at hj
      exact absurd rfl ((List.nodup_append.1 hs.linked.nodup).2.2 i hj i List.mem_cons_self)
    · exact hs.high j hj d hd

/-- The free slot of the newest chunk is above the records. -/
theorem Shaped.opens {h : History} {js : List Nat} {i : Nat} {c : Chunk}
    (hs : h.Shaped (js ++ [i])) (hc : h.chunk? i = some c) (hlt : c.stop < c.capacity) :
    h.Opens ⟨i, c.stop⟩ (h.modify i Chunk.openAbove) := by
  have hs' := hs.openAbove hc hlt
  refine ⟨⟨_, hs'⟩, ?_, fun p => ?_, rfl⟩
  · have hle := Nat.le_of_lt (hs.filled hc)
    have hlast : (h.modify i Chunk.openAbove).spotsAt i = h.spotsAt i ++ [⟨i, c.stop⟩] := by
      rw [spotsAt_eq (chunk?_modify_self hc Chunk.openAbove), spotsAt_eq hc]
      show (List.range' c.start (c.stop + 1 - c.start)).map (Spot.mk i) = _
      rw [Nat.sub_add_comm hle, List.range'_1_concat, List.map_append, Nat.add_sub_cancel' hle]
      rfl
    have hbelow : js.flatMap (h.modify i Chunk.openAbove).spotsAt = js.flatMap h.spotsAt := by
      refine flatMap_spotsAt_congr fun j hj => chunk?_modify_of_ne ?_ _
      rintro rfl
      exact (List.nodup_append.1 hs.linked.nodup).2.2 i hj i List.mem_cons_self rfl
    rw [hs'.spots_eq, hs.spots_eq, List.flatMap_append, List.flatMap_append,
      List.flatMap_singleton, List.flatMap_singleton, hlast, hbelow, List.append_assoc]
  · rw [spot?, spot?, chunk?_modify]
    split
    · cases h.chunk? p.chunk <;> rfl
    · rfl

/-- The newest chunk has a free slot, or its records reach up to its end. -/
theorem Tidy.reserve? {h : History} (ht : h.Tidy) :
    (∃ top g, h.reserve? = some (top, g) ∧ h.Opens top g) ∨
      (h.reserve? = none ∧ ∀ i c, h.chunk? i = some c → c.stop = c.capacity) := by
  have hs := ht.shaped
  rcases List.eq_nil_or_concat h.chunks.forth with hi | ⟨js, i, hi⟩
  · right
    rw [hi] at hs
    refine ⟨by rw [History.reserve?, hs.linked.head]; rfl, fun i c hc => ?_⟩
    exact absurd (hs.mem_of_chunk hc) List.not_mem_nil
  · rw [List.concat_eq_append] at hi
    rw [hi] at hs
    obtain ⟨c, hc⟩ := hs.exists_chunk (i := i) (by simp)
    have hhead : h.chunks.head = some i := by rw [hs.linked.head, List.getLast?_concat]
    rw [History.reserve?, hhead]
    simp only [hc]
    by_cases hlt : c.stop < c.capacity
    · exact Or.inl ⟨⟨i, c.stop⟩, _, if_pos hlt, hs.opens hc hlt⟩
    · right
      refine ⟨if_neg hlt, fun j d hd => ?_⟩
      rcases List.mem_append.1 (hs.mem_of_chunk hd) with hj | hj
      · exact hs.high j (by simpa using hj) d hd
      · rw [List.mem_singleton.1 hj, hc] at hd
        cases hd
        have := hs.fits hc
        omega

/-- A history keeps its shape when a chunk is put above full ones. -/
theorem Shaped.above {g h : History} {is : List Nat} {k n : Nat} (hs : h.Shaped is)
    (hfull : ∀ i c, h.chunk? i = some c → c.stop = c.capacity) (hn : 0 < n)
    (hlinked : g.chunks.Linked (is ++ [k])) (hnew : k ∉ is)
    (hget : ∀ j, g.chunk? j = if k = j then some (Chunk.forNewer n) else h.chunk? j) :
    g.Shaped (is ++ [k]) := by
  have hcases : ∀ {j c}, g.chunk? j = some c → k = j ∧ c = Chunk.forNewer n ∨ h.chunk? j = some c := by
    intro j c hc
    rw [hget] at hc
    split at hc
    · next hj =>
      cases hc
      exact Or.inl ⟨hj, rfl⟩
    · exact Or.inr hc
  refine ⟨hlinked, fun {j c} hc => ?_, fun {j c} hc => ?_, fun j hj c hc => ?_, fun j hj c hc => ?_⟩
  · rcases hcases hc with ⟨-, rfl⟩ | hc
    · exact Nat.one_pos
    · exact hs.filled hc
  · rcases hcases hc with ⟨-, rfl⟩ | hc
    · simpa [Chunk.forNewer, Chunk.capacity] using Nat.succ_le_of_lt hn
    · exact hs.fits hc
  · rcases hcases hc with ⟨-, rfl⟩ | hc'
    · rfl
    · have hmem := hs.mem_of_chunk hc'
      refine hs.low j ?_ c hc'
      cases is with
      | nil => exact absurd hmem List.not_mem_nil
      | cons i is =>
        rw [List.cons_append, List.tail_cons, List.mem_append] at hj
        refine hj.resolve_right fun hj => hnew ?_
        rw [← List.mem_singleton.1 hj]
        exact hmem
  · rw [List.dropLast_concat] at hj
    rcases hcases hc with ⟨rfl, -⟩ | hc
    · exact absurd hj hnew
    · exact hfull j c hc

/-- A chunk is put above a history whose newest chunk is full. -/
theorem Tidy.addNewest {h : History} (ht : h.Tidy)
    (hfull : ∀ i c, h.chunk? i = some c → c.stop = c.capacity) {n : Nat} (hn : 0 < n) :
    h.Opens (h.addNewest n).1 (h.addNewest n).2 := by
  have hs := ht.shaped
  have hlink : h.chunks.Linked (h.chunks.forth ++ []) := by
    rw [List.append_nil]
    exact hs.linked
  obtain ⟨hl, hnew, hget⟩ := hlink.link (Chunk.forNewer n)
  rw [List.append_nil] at hnew
  rw [List.head?_nil] at hl hnew hget
  change (h.addNewest n).2.chunks.Linked (h.chunks.forth ++ [(h.addNewest n).1.chunk]) at hl
  change (h.addNewest n).1.chunk ∉ _ at hnew
  change ∀ k, (h.addNewest n).2.chunk? k =
    if (h.addNewest n).1.chunk = k then some (Chunk.forNewer n) else h.chunk? k at hget
  have htop : (h.addNewest n).1 = ⟨(h.addNewest n).1.chunk, 0⟩ := rfl
  have hsize : (h.addNewest n).2.size = h.size := rfl
  generalize (h.addNewest n).2 = g at *
  generalize (h.addNewest n).1 = top at *
  have hshaped := hs.above hfull hn hl hnew hget
  refine ⟨⟨_, hshaped⟩, ?_, fun p => ?_, hsize⟩
  · have hlast : g.spotsAt top.chunk = [top] := by
      rw [spotsAt_eq ((hget _).trans (if_pos rfl)), htop]
      rfl
    have hbelow : h.chunks.forth.flatMap g.spotsAt = h.chunks.forth.flatMap h.spotsAt := by
      refine flatMap_spotsAt_congr fun j hj => ?_
      rw [hget, if_neg]
      rintro rfl
      exact hnew hj
    rw [hshaped.spots_eq, hs.spots_eq, List.flatMap_append, List.flatMap_singleton, hlast, hbelow]
  · rw [spot?, hget, spot?]
    split
    · next hp =>
      have hnone : h.chunk? p.chunk = none := by
        rw [← Option.not_isSome_iff_eq_none, ← hp]
        exact fun hsome => hnew (hs.linked.get?_isSome_iff.1 hsome)
      rw [hnone, Option.bind_some, Option.bind_none, Chunk.slot?, Chunk.kept?,
        Chunk.forNewer, Array.getElem?_replicate]
      split <;> rfl
    · rfl

/-! ## Putting a record in -/

/-- What `ps` and `qs` hold in `h` is held by `ps` and `rs` in `k`, with the record `r` at `p` in
between. -/
structure Gains (h : History) (ps qs : List Spot) (r : Record) (p : Spot) (rs : List Spot)
    (k : History) : Prop where
  shaped : ∃ is, k.Shaped is
  size : k.size = h.size + 1
  spots : k.spots = ps ++ p :: rs
  below : ∀ x ∈ ps, k.spot? x = h.spot? x
  spot : k.spot? p = some r
  above : rs.map k.spot? = qs.map h.spot?
  used : ∀ x, (k.spot? x).isSome → x ∈ k.spots

namespace Gains

variable {h k : History} {ps qs rs : List Spot} {r : Record} {p : Spot}

theorem records_eq (hg : h.Gains ps qs r p rs k) :
    k.records = ps.filterMap h.spot? ++ r :: qs.filterMap h.spot? := by
  have hid : ∀ (f : Spot → Option Record) (l : List Spot), l.filterMap f = (l.map f).filterMap id :=
    fun f l => by rw [List.filterMap_map]; rfl
  have habove : rs.filterMap k.spot? = qs.filterMap h.spot? := by rw [hid, hg.above, ← hid]
  rw [History.records_eq, hg.spots, List.filterMap_append, List.filterMap_congr hg.below,
    List.filterMap_cons, hg.spot, habove]

theorem tidy (hg : h.Gains ps qs r p rs k) (ht : h.Tidy) (hsplit : h.spots = ps ++ qs) :
    k.Tidy := by
  obtain ⟨is, hs⟩ := hg.shaped
  refine ⟨hs.forth, fun x => ⟨hg.used x, fun hx => ?_⟩, ?_⟩
  · rw [hg.spots, List.mem_append, List.mem_cons] at hx
    rcases hx with hx | rfl | hx
    · rw [hg.below x hx]
      exact ht.isSome_spot x (by rw [hsplit]; exact List.mem_append_left qs hx)
    · rw [hg.spot]
      rfl
    · have hmem : k.spot? x ∈ qs.map h.spot? := by
        rw [← hg.above]
        exact List.mem_map_of_mem hx
      obtain ⟨q, hq, heq⟩ := List.mem_map.1 hmem
      rw [← heq]
      exact ht.isSome_spot q (by rw [hsplit]; exact List.mem_append_right ps hq)
  · have hlength := congrArg List.length hg.above
    rw [List.length_map, List.length_map] at hlength
    rw [hg.size, ht.size, hsplit, hg.spots]
    simp only [List.length_append, List.length_cons]
    omega

end Gains

/-- A record in the slot above the others is the newest. -/
theorem Opens.put {h g : History} {top : Spot} (ht : h.Tidy) (ho : h.Opens top g)
    (r : CachedRecord) :
    (g.put top r).Tidy ∧ (g.put top r).records = h.records ++ [r.toRecord] := by
  obtain ⟨is, hs⟩ := ho.shaped
  have htop : top ∉ h.spots := by
    have hnodup := hs.nodup_spots
    rw [ho.spots] at hnodup
    exact fun hmem => (List.nodup_append.1 hnodup).2.2 top hmem top List.mem_cons_self rfl
  have hmem : top ∈ g.spots := by
    rw [ho.spots]
    exact List.mem_append_right _ List.mem_cons_self
  have hspots : (g.put top r).spots = h.spots ++ [top] :=
    (hs.spots_setSpot top (some r)).trans ho.spots
  have hspot : ∀ q, (g.put top r).spot? q = if top = q then some r.toRecord else h.spot? q := by
    intro q
    rw [← ho.spot]
    exact hs.spot?_setSpot hmem (some r) q
  have hgains : h.Gains h.spots [] r.toRecord top [] (g.put top r) := by
    refine ⟨⟨is, hs.put top r⟩, congrArg (· + 1) ho.size, hspots, fun x hx => ?_, ?_, rfl,
      fun x hx => ?_⟩
    · rw [hspot, if_neg]
      rintro rfl
      exact htop hx
    · rw [hspot, if_pos rfl]
    · rw [hspots, List.mem_append, List.mem_singleton]
      rw [hspot] at hx
      split at hx
      · next hq => exact Or.inr hq.symm
      · exact Or.inl ((ht.used x).1 hx)
  refine ⟨hgains.tidy ht (List.append_nil _).symm, ?_⟩
  rw [hgains.records_eq, ← History.records_eq]
  rfl

/-- What the spots `qs` held has moved up by a spot, into the hole at the end of `qs ++ [dst]`. -/
structure Shifted (g : History) (qs : List Spot) (dst : Spot) (g' : History) : Prop where
  shaped : ∃ is, g'.Shaped is
  spots : g'.spots = g.spots
  size : g'.size = g.size
  moved : (qs ++ [dst]).tail.map g'.spot? = qs.map g.spot?
  kept : ∀ p, p ∉ qs ++ [dst] → g'.spot? p = g.spot? p

/-- Records are moved up one by one, the newest first, and the hole wanders down to `after`. -/
theorem shiftUp_eq {after : Spot} {qs : List Spot} (older : List Spot) :
    ∀ {g : History} {is : List Nat} {ps ts : List Spot} {dst : Spot}, g.Shaped is →
      g.spots = ps ++ after :: (qs ++ dst :: ts) → (∀ q ∈ qs, (g.spot? q).isSome) →
      ∃ p g', (qs ++ [dst]).head? = some p ∧
        shiftUp after (qs.reverse ++ after :: older) dst g = (some p, g') ∧
        g.Shifted qs dst g' := by
  induction qs using List.reverseRecOn with
  | nil =>
    intro g is ps ts dst hs _ _
    refine ⟨dst, g, rfl, ?_, ⟨is, hs⟩, rfl, rfl, rfl, fun _ _ => rfl⟩
    rw [List.reverse_nil, List.nil_append, shiftUp, if_pos rfl]
  | append_singleton qs q ih =>
    intro g is ps ts dst hs hsplit hfull
    have hnodup := hs.nodup_spots
    rw [hsplit] at hnodup
    have hd := (List.nodup_append.1 hnodup).2.1
    rw [List.nodup_cons, List.append_assoc] at hd
    have hafter : q ≠ after := by
      rintro rfl
      exact hd.1 (by simp)
    have hq : q ∈ g.spots := by rw [hsplit]; simp
    have hdst : dst ∈ g.spots := by rw [hsplit]; simp
    have hdq : dst ≠ q := by
      rintro rfl
      have := (List.nodup_append.1 hd.2).2.1
      simp at this
    have hnot : ∀ x ∈ qs, dst ≠ x ∧ q ≠ x := by
      intro x hx
      have := (List.nodup_append.1 hd.2).2.2 x hx
      exact ⟨fun h => this dst (by simp) h.symm, fun h => this q (by simp) h.symm⟩
    obtain ⟨hs', hspots, hsize, hspot⟩ := hs.move hq hdst (hfull q (by simp))
    obtain ⟨p, g', hhead, hshift, hg'⟩ := @ih (g.move q dst) _ _ (dst :: ts) q hs'
      (by rw [hspots, hsplit, List.append_assoc]; rfl) fun x hx => by
        rw [hspot, if_neg (hnot x hx).1, if_neg (hnot x hx).2]
        exact hfull x (List.mem_append_left _ hx)
    refine ⟨p, g', ?_, ?_, hg'.shaped, hg'.spots.trans hspots, hg'.size.trans hsize,
      ?_, fun x hx => ?_⟩
    · rw [List.head?_append, hhead]
      rfl
    · rw [List.reverse_append, List.reverse_singleton, List.singleton_append, List.cons_append,
        shiftUp, if_neg hafter, hshift]
    · have hne : qs ++ [q] ≠ [] := List.append_ne_nil_of_right_ne_nil _ (List.cons_ne_nil q [])
      have hlast : g'.spot? dst = g.spot? q := by
        rw [hg'.kept, hspot, if_pos rfl]
        rw [List.mem_append, List.mem_singleton, not_or]
        exact ⟨fun hx => (hnot dst hx).1 rfl, hdq⟩
      rw [List.tail_append_of_ne_nil hne, List.map_append, hg'.moved, List.map_append,
        List.map_singleton, List.map_singleton, hlast]
      congr 1
      refine List.map_congr_left fun x hx => ?_
      rw [hspot, if_neg (hnot x hx).1, if_neg (hnot x hx).2]
    · simp only [List.mem_append, List.mem_singleton, not_or] at hx
      rw [hg'.kept, hspot, if_neg (Ne.symm hx.2), if_neg (Ne.symm hx.1.2)]
      simpa using hx.1

/-- A record in the hole is where it belongs. -/
theorem Shifted.gains {h g g' : History} {ps qs : List Spot} {top p : Spot}
    (hg' : g.Shifted qs top g') (ht : h.Tidy) (ho : h.Opens top g) (hsplit : h.spots = ps ++ qs)
    (hhead : (qs ++ [top]).head? = some p) (r : CachedRecord) :
    h.Gains ps qs r.toRecord p (qs ++ [top]).tail (g'.put p r) := by
  obtain ⟨is, hs⟩ := hg'.shaped
  have htail : qs ++ [top] = p :: (qs ++ [top]).tail := List.eq_cons_of_mem_head? hhead
  have hall : g'.spots = ps ++ (qs ++ [top]) := by
    rw [hg'.spots, ho.spots, hsplit, List.append_assoc]
  have hnodup := hs.nodup_spots
  rw [hall] at hnodup
  obtain ⟨-, hhigh, hne⟩ := List.nodup_append.1 hnodup
  have hpin : p ∈ qs ++ [top] := by
    rw [htail]
    exact List.mem_cons_self
  have hspot : ∀ x, (g'.put p r).spot? x = if p = x then some r.toRecord else g'.spot? x :=
    hs.spot?_setSpot (by rw [hall]; exact List.mem_append_right ps hpin) (some r)
  have hspots : (g'.put p r).spots = ps ++ (qs ++ [top]) :=
    (hs.spots_setSpot p (some r)).trans hall
  refine ⟨⟨is, hs.put p r⟩, ?_, ?_, fun x hx => ?_, ?_, ?_, fun x hx => ?_⟩
  · show g'.size + 1 = _
    rw [hg'.size, ho.size]
  · rw [hspots, ← htail]
  · rw [hspot, if_neg, hg'.kept x, ho.spot]
    · exact fun hx' => hne x hx x hx' rfl
    · rintro rfl
      exact hne p hx p hpin rfl
  · rw [hspot, if_pos rfl]
  · have hmoved : (qs ++ [top]).tail.map g'.spot? = qs.map h.spot? := by
      rw [hg'.moved]
      exact List.map_congr_left fun x _ => ho.spot x
    rw [← hmoved]
    refine List.map_congr_left fun x hx => ?_
    rw [hspot, if_neg]
    rintro rfl
    rw [htail] at hhigh
    exact (List.nodup_cons.1 hhigh).1 hx
  · by_contra hnot
    rw [hspots, List.mem_append, not_or] at hnot
    rw [hspot, if_neg, hg'.kept x hnot.2, ho.spot, ht.used, hsplit, List.mem_append] at hx
    · exact hx.elim hnot.1 fun hx => hnot.2 (List.mem_append_left _ hx)
    · rintro rfl
      exact hnot.2 hpin

/-- **A record is put in its place**: the later ones move up, the flat list gains it right after
`after`. -/
theorem Opens.insert {h g : History} {top after : Spot} (ht : h.Tidy) (ho : h.Opens top g)
    {ps qs : List Spot} (hsplit : h.spots = ps ++ after :: qs) (r : CachedRecord) :
    ∃ p g', g.makeRoom after top = (some p, g') ∧ (g'.put p r).Tidy ∧
      (g'.put p r).records =
        (ps ++ [after]).filterMap h.spot? ++ r.toRecord :: qs.filterMap h.spot? := by
  obtain ⟨is, hs⟩ := ho.shaped
  have hspots : g.spots = (ps ++ after :: qs) ++ top :: [] := by rw [ho.spots, hsplit]
  have hpath : follow g.before? g.size (g.before? top) = qs.reverse ++ after :: ps.reverse := by
    have hvisits := (hs.visits_before_spot hspots).2
    rw [List.reverse_append, List.reverse_cons, List.append_assoc] at hvisits
    refine follow_eq_of_visits hvisits ?_
    rw [ho.size, ht.size, hsplit]
    simp only [List.length_append, List.length_reverse, List.length_cons]
    omega
  rw [List.append_assoc, List.cons_append] at hspots
  have hfull : ∀ q ∈ qs, (g.spot? q).isSome := by
    intro q hq
    rw [ho.spot]
    exact ht.isSome_spot q (by rw [hsplit]; simp [hq])
  obtain ⟨p, g', hhead, hshift, hg'⟩ := shiftUp_eq ps.reverse hs hspots hfull
  have hsplit' : h.spots = (ps ++ [after]) ++ qs := by rw [hsplit, List.append_cons]
  have hgains := hg'.gains ht ho hsplit' hhead r
  exact ⟨p, g', by rw [makeRoom, hpath, hshift], hgains.tidy ht hsplit', hgains.records_eq⟩

/-- The place of a record is right after the last one that is not later. -/
theorem Opens.insertAt {h g : History} {top after : Spot} (ht : h.Tidy) (hin : InOrder h.records)
    (ho : h.Opens top g) (r : CachedRecord) (hafter : h.position? r.time = some after) :
    ∃ p g', g.makeRoom after top = (some p, g') ∧ (g'.put p r).Tidy ∧
      (g'.put p r).records = h.records.filter (fun x => decide (x.time ≤ r.time)) ++
        r.toRecord :: h.records.filter fun x => !decide (x.time ≤ r.time) := by
  rw [ht.position?_eq hin, List.getLast?_eq_some_iff] at hafter
  obtain ⟨ps, hps⟩ := hafter
  obtain ⟨qs, hqs⟩ : h.spotsUpTo r.time <+: h.spots := List.takeWhile_prefix _
  have hlow := filterMap_spotsUpTo hin r.time
  have hall : h.records = (h.spotsUpTo r.time).filterMap h.spot? ++ qs.filterMap h.spot? := by
    rw [records_eq, ← List.filterMap_append, hqs]
  have hhigh : qs.filterMap h.spot? = h.records.filter fun x => !decide (x.time ≤ r.time) := by
    have hsplit := List.takeWhile_append_dropWhile (p := fun x => decide (x.time ≤ r.time))
      (l := h.records)
    rw [takeWhile_eq_filter_of_pairwise (hin.upTo _),
      dropWhile_eq_filter_of_pairwise (hin.upTo _), ← hlow] at hsplit
    exact List.append_cancel_left (hall.symm.trans hsplit.symm)
  rw [hps] at hqs hlow
  have hsplit : h.spots = ps ++ after :: qs := by
    rw [← hqs, List.append_assoc]
    rfl
  obtain ⟨p, g', hroom, htidy, hrecords⟩ := ho.insert ht hsplit r
  exact ⟨p, g', hroom, htidy, by rw [hrecords, hlow, hhigh]⟩

end History

end HistoryCache
