import HistoryCache.Proofs.Chunk
import HistoryCache.Proofs.Spots

/-!
# The ends of a history

What enters and leaves a history chunk by chunk, at its oldest end above all.

* `History.Kept`: the chunks are linked and each holds records exactly where it says so.
* `History.Loose`: a history that is tidy but for its oldest chunk, which may be empty.
* `Tidy.dropThrough`: what is dropped up to a second is the records up to that second.
* `Tidy.trim`: what is trimmed is a prefix in whole seconds.
-/

namespace HistoryCache

namespace Chunk

theorem Exact.lt_iff {c : Chunk} (hc : c.Exact) : c.start < c.stop ↔ c.records ≠ [] := by
  have hle := hc.le
  rw [← not_iff_not, not_not, ← hc.isEmpty_iff, isEmpty, beq_iff_eq]
  omega

end Chunk

/-- The records that were let go of. -/
def Released.records (gone : Released) : List Record := gone.kept.map CachedRecord.toRecord

theorem Released.records_append (gone gone' : Released) :
    (gone ++ gone').records = gone.records ++ gone'.records :=
  List.map_append

namespace History

/-- The records in the chunk at a place. -/
def recordsAt (h : History) (i : Nat) : List Record := (h.chunk? i).elim [] Chunk.records

theorem recordsAt_eq {h : History} {i : Nat} {c : Chunk} (hc : h.chunk? i = some c) :
    h.recordsAt i = c.records := by
  rw [recordsAt, hc, Option.elim_some]

theorem flatMap_recordsAt_congr {g h : History} {is : List Nat}
    (hc : ∀ i ∈ is, g.chunk? i = h.chunk? i) :
    is.flatMap g.recordsAt = is.flatMap h.recordsAt := by
  apply List.flatMap_congr
  intro i hi
  rw [recordsAt, recordsAt, hc i hi]

theorem records_of_linked {h : History} {is : List Nat} (hl : h.chunks.Linked is) :
    h.records = is.flatMap h.recordsAt := by
  rw [records, hl.forth_eq]
  rfl

/-- The chunks are linked along `is`, exactly their slots in use hold something, and the size is
the number of records. -/
structure Kept (h : History) (is : List Nat) : Prop where
  linked : h.chunks.Linked is
  exact : ∀ {i c}, h.chunk? i = some c → c.Exact
  size : h.size = h.records.length

namespace Kept

variable {h : History} {is js ks : List Nat} {i : Nat} {c : Chunk}

theorem records_eq (hk : h.Kept is) : h.records = is.flatMap h.recordsAt :=
  records_of_linked hk.linked

theorem exists_chunk (hk : h.Kept is) (hi : i ∈ is) : ∃ c, h.chunk? i = some c :=
  Option.isSome_iff_exists.1 (hk.linked.get?_isSome_iff.2 hi)

theorem mem_of_chunk (hk : h.Kept is) (hc : h.chunk? i = some c) : i ∈ is :=
  hk.linked.get?_isSome_iff.1 (by rw [show h.chunks.get? i = some c from hc]; rfl)

theorem notMem (hk : h.Kept (js ++ i :: ks)) : i ∉ js ∧ i ∉ ks := by
  have := (List.nodup_cons.1 (List.nodup_middle.1 hk.linked.nodup)).1
  exact ⟨fun hi => this (List.mem_append_left ks hi), fun hi => this (List.mem_append_right js hi)⟩

theorem records_split (js : List Nat) (hk : h.Kept (js ++ i :: ks)) (hc : h.chunk? i = some c) :
    h.records = js.flatMap h.recordsAt ++ (c.records ++ ks.flatMap h.recordsAt) := by
  rw [hk.records_eq, List.flatMap_append, List.flatMap_cons, recordsAt_eq hc]

/-- A change of one chunk changes its part of the records. -/
theorem records_modify (js : List Nat) (hk : h.Kept (js ++ i :: ks)) (hc : h.chunk? i = some c)
    (f : Chunk → Chunk) :
    (h.modify i f).records =
      js.flatMap h.recordsAt ++ ((f c).records ++ ks.flatMap h.recordsAt) := by
  have hl : (h.modify i f).chunks.Linked (js ++ i :: ks) := hk.linked.modify i f
  have hother : ∀ ls : List Nat, i ∉ ls →
      ls.flatMap (h.modify i f).recordsAt = ls.flatMap h.recordsAt := by
    intro ls hi
    refine flatMap_recordsAt_congr fun j hj => chunk?_modify_of_ne ?_ f
    rintro rfl
    exact hi hj
  rw [records_of_linked hl, List.flatMap_append, List.flatMap_cons,
    recordsAt_eq (chunk?_modify_self hc f), hother js hk.notMem.1, hother ks hk.notMem.2]

/-- An exact chunk in the place of another keeps a history in order, if the size is right. -/
theorem modify (hk : h.Kept is) (hc : h.chunk? i = some c) {f : Chunk → Chunk}
    (hf : (f c).Exact) {n : Nat} (hn : n = (h.modify i f).records.length) :
    ({ h.modify i f with size := n } : History).Kept is where
  linked := hk.linked.modify i f
  exact {j d} hd := by
    change (h.modify i f).chunk? j = some d at hd
    by_cases hij : i = j
    · subst hij
      rw [chunk?_modify_self hc] at hd
      cases hd
      exact hf
    · rw [chunk?_modify_of_ne hij] at hd
      exact hk.exact hd
  size := hn

/-- The oldest record of a chunk is taken out of the records. -/
theorem popFrom (js : List Nat) (hk : h.Kept (js ++ i :: ks)) (hc : h.chunk? i = some c) {r : Record}
    {rs : List Record} (hr : c.records = r :: rs) :
    ∃ gone g, h.popFrom i = (gone, g) ∧ gone.records = [r] ∧ g.Kept (js ++ i :: ks) ∧
      g.chunk? i = some c.popOldest.2 ∧ (∀ j, i ≠ j → g.chunk? j = h.chunk? j) ∧
      g.records = js.flatMap h.recordsAt ++ (rs ++ ks.flatMap h.recordsAt) := by
  obtain ⟨⟨kept, hpop, rfl⟩, hexact, hrs⟩ := (hk.exact hc).popOldest hr
  have hrecords := hk.records_modify js hc fun c => c.popOldest.2
  rw [hrs] at hrecords
  refine ⟨{ kept := [kept] }, { h.modify i (fun c => c.popOldest.2) with size := h.size - 1 }, ?_, rfl,
    ?_, ?_, ?_, hrecords⟩
  · rw [History.popFrom, hc, Option.bind_some, hpop]
    rfl
  · refine hk.modify hc hexact ?_
    rw [hrecords, hk.size, hk.records_split js hc, hr]
    simp only [List.length_append, List.length_cons]
    omega
  · exact chunk?_modify_self hc _
  · exact fun j hij => chunk?_modify_of_ne hij _

/-- A chunk is taken out with its records. -/
theorem removeChunk (js : List Nat) (hk : h.Kept (js ++ i :: ks)) (hc : h.chunk? i = some c) :
    ∃ g, h.removeChunk i = (⟨c.contents, [c.capacity]⟩, g) ∧ g.Kept (js ++ ks) ∧
      (∀ j, g.chunk? j = if i = j then none else h.chunk? j) ∧
      g.records = js.flatMap h.recordsAt ++ ks.flatMap h.recordsAt := by
  obtain ⟨b, hb, hl, hget⟩ := hk.linked.unlink hc
  have hother : ∀ ls : List Nat, i ∉ ls →
      ls.flatMap (⟨b, h.size - c.contents.length⟩ : History).recordsAt =
        ls.flatMap h.recordsAt := by
    intro ls hi
    refine flatMap_recordsAt_congr fun j hj => ?_
    rw [chunk?, hget, if_neg]
    · rfl
    · rintro rfl
      exact hi hj
  have hrecords : (⟨b, h.size - c.contents.length⟩ : History).records =
      js.flatMap h.recordsAt ++ ks.flatMap h.recordsAt := by
    rw [records_of_linked hl, List.flatMap_append, hother js hk.notMem.1,
      hother ks hk.notMem.2]
  refine ⟨⟨b, h.size - c.contents.length⟩, ?_, ⟨hl, fun {j d} hd => ?_, ?_⟩, hget, hrecords⟩
  · rw [History.removeChunk, hb]
  · rw [chunk?, hget] at hd
    split at hd
    · cases hd
    · exact hk.exact hd
  · have hlength := congrArg List.length (hk.exact hc).contents_eq
    rw [List.length_map] at hlength
    rw [hrecords, hlength, hk.size, hk.records_split js hc]
    simp only [List.length_append]
    omega

/-- A chunk to be filled is put below the others. -/
theorem addOldest (hk : h.Kept is) (n : Nat) :
    ∃ i, (h.addOldest n).Kept (i :: is) ∧ i ∉ is ∧
      (∀ j, (h.addOldest n).chunk? j = if i = j then some (Chunk.forOlder n) else h.chunk? j) ∧
      (h.addOldest n).records = h.records := by
  have hlink : h.chunks.Linked ([] ++ is) := hk.linked
  obtain ⟨hl, hnew, hget⟩ := hlink.link (Chunk.forOlder n)
  rw [← hk.linked.tail] at hl hnew hget
  have hnone : (Chunk.forOlder n).records = [] := by
    simp [Chunk.records, Chunk.size, Chunk.forOlder]
  have hrecords : (h.addOldest n).records = h.records := by
    rw [records_of_linked (h := h.addOldest n) hl, hk.records_eq, List.nil_append,
      List.flatMap_cons, recordsAt_eq (c := Chunk.forOlder n), hnone, List.nil_append]
    · refine flatMap_recordsAt_congr fun j hj => ?_
      rw [chunk?, History.addOldest, hget, if_neg]
      · rfl
      · rintro rfl
        exact hnew hj
    · rw [chunk?, History.addOldest, hget, if_pos rfl]
  refine ⟨_, ⟨hl, fun {j d} hd => ?_, ?_⟩, hnew, hget, hrecords⟩
  · rw [chunk?, History.addOldest, hget] at hd
    split at hd
    · cases hd
      exact Chunk.Exact.forOlder n
    · exact hk.exact hd
  · rw [hrecords]
    exact hk.size

end Kept

/-! ## Tidy but for an empty oldest chunk -/

/-- A history that would be tidy if its oldest chunk held a record. -/
structure Loose (h : History) (is : List Nat) : Prop where
  kept : h.Kept is
  filled : ∀ i ∈ is.tail, ∀ c, h.chunk? i = some c → c.records ≠ []
  low : ∀ i ∈ is.tail, ∀ c, h.chunk? i = some c → c.start = 0
  high : ∀ i ∈ is.dropLast, ∀ c, h.chunk? i = some c → c.stop = c.capacity

theorem Tidy.exact {h : History} (ht : h.Tidy) {i : Nat} {c : Chunk} (hc : h.chunk? i = some c) :
    c.Exact where
  le := Nat.le_of_lt (ht.shaped.filled hc)
  fits := ht.shaped.fits hc
  used k := by
    have := ht.used ⟨i, k⟩
    rw [ht.shaped.mem_spots, mem_spotsAt, spot?, hc] at this
    simpa using this

theorem Tidy.kept {h : History} (ht : h.Tidy) : h.Kept h.chunks.forth where
  linked := ht.shaped.linked
  exact := ht.exact
  size := ht.length_records.symm

theorem Tidy.loose {h : History} (ht : h.Tidy) : h.Loose h.chunks.forth where
  kept := ht.kept
  filled _ _ _ hc := (ht.exact hc).lt_iff.1 (ht.shaped.filled hc)
  low := ht.shaped.low
  high := ht.shaped.high

namespace Loose

variable {h : History} {is : List Nat}

theorem tidy (hl : h.Loose is)
    (hfirst : ∀ i c, is.head? = some i → h.chunk? i = some c → c.records ≠ []) : h.Tidy := by
  have hshaped : h.Shaped is := by
    refine ⟨hl.kept.linked, fun {i c} hc => ?_, fun hc => (hl.kept.exact hc).fits, hl.low, hl.high⟩
    have hi := hl.kept.mem_of_chunk hc
    refine (hl.kept.exact hc).lt_iff.2 ?_
    cases is with
    | nil => exact absurd hi List.not_mem_nil
    | cons j js =>
      rcases List.mem_cons.1 hi with rfl | hi
      · exact hfirst i c rfl hc
      · exact hl.filled i hi c hc
  have hused : ∀ p, (h.spot? p).isSome ↔ p ∈ h.spots := by
    intro p
    rw [hshaped.mem_spots, mem_spotsAt, spot?]
    cases hc : h.chunk? p.chunk with
    | none => simp
    | some c => simpa using (hl.kept.exact hc).used p.slot
  refine ⟨hshaped.forth, hused, ?_⟩
  rw [hl.kept.size, records_eq, List.filterMap_length_eq_length]
  exact fun p hp => (hused p).2 hp

end Loose

/-- The chunks along `is` hold records from the lowest slot on, and up to the highest but for the
last one. -/
structure Upper (h : History) (is : List Nat) : Prop where
  filled : ∀ i ∈ is, ∀ c, h.chunk? i = some c → c.records ≠ []
  low : ∀ i ∈ is, ∀ c, h.chunk? i = some c → c.start = 0
  high : ∀ i ∈ is.dropLast, ∀ c, h.chunk? i = some c → c.stop = c.capacity

theorem Loose.upper {h : History} {i : Nat} {is : List Nat} (hl : h.Loose (i :: is)) :
    h.Upper is where
  filled := hl.filled
  low := hl.low
  high j hj c hc := by
    refine hl.high j ?_ c hc
    cases is with
    | nil => cases hj
    | cons k ks => exact List.mem_cons_of_mem i hj

namespace Upper

variable {g h : History} {i : Nat} {is : List Nat}

theorem congr (hu : h.Upper is) (hc : ∀ j ∈ is, g.chunk? j = h.chunk? j) : g.Upper is where
  filled j hj c hg := hu.filled j hj c (hc j hj ▸ hg)
  low j hj c hg := hu.low j hj c (hc j hj ▸ hg)
  high j hj c hg := hu.high j hj c (hc j (List.dropLast_subset is hj) ▸ hg)

theorem tail (hu : h.Upper (i :: is)) : h.Upper is where
  filled j hj := hu.filled j (List.mem_cons_of_mem i hj)
  low j hj := hu.low j (List.mem_cons_of_mem i hj)
  high j hj := by
    apply hu.high j
    cases is with
    | nil => cases hj
    | cons k ks => exact List.mem_cons_of_mem i hj

/-- A chunk that reaches up to its end may be the oldest. -/
theorem loose (hu : h.Upper is) (hk : h.Kept (i :: is))
    (hfull : is ≠ [] → ∀ c, h.chunk? i = some c → c.stop = c.capacity) : h.Loose (i :: is) where
  kept := hk
  filled := hu.filled
  low := hu.low
  high j hj c hc := by
    cases is with
    | nil => cases hj
    | cons k ks =>
      rcases List.mem_cons.1 hj with rfl | hj
      · exact hfull (List.cons_ne_nil k ks) c hc
      · exact hu.high j hj c hc

theorem tidy (hu : h.Upper is) (hk : h.Kept is) : h.Tidy := by
  have hl : h.Loose is := by
    refine ⟨hk, fun j hj => ?_, fun j hj => ?_, hu.high⟩
    · exact hu.filled j (List.mem_of_mem_tail hj)
    · exact hu.low j (List.mem_of_mem_tail hj)
  exact hl.tidy fun j c hj hc => hu.filled j (List.mem_of_mem_head? hj) c hc

end Upper

/-- The empty chunk is let go of, and nothing else. -/
theorem Loose.dropEmpty {h : History} {is : List Nat} (hl : h.Loose is) :
    h.dropEmpty.2.Tidy ∧ h.dropEmpty.2.records = h.records ∧ h.dropEmpty.1.records = [] := by
  rw [History.dropEmpty, hl.kept.linked.tail]
  cases is with
  | nil => exact ⟨hl.tidy (fun i c hi => by cases hi), rfl, rfl⟩
  | cons i js =>
    rw [List.head?_cons, Option.elim_some]
    obtain ⟨c, hc⟩ := hl.kept.exists_chunk (i := i) List.mem_cons_self
    rw [removeIfEmpty, hc, Option.all_some]
    split
    · next he =>
      rw [(hl.kept.exact hc).isEmpty_iff] at he
      obtain ⟨g, hg, hgk, hget, hrs⟩ := hl.kept.removeChunk [] hc
      have hother : ∀ j ∈ js, g.chunk? j = h.chunk? j := by
        intro j hj
        rw [hget, if_neg]
        rintro rfl
        exact (List.nodup_cons.1 hl.kept.linked.nodup).1 hj
      rw [hg]
      refine ⟨(hl.upper.congr hother).tidy hgk, ?_, (hl.kept.exact hc).contents_eq.trans he⟩
      show g.records = h.records
      rw [hrs, hl.kept.records_split [] hc, he]
      rfl
    · next he =>
      refine ⟨hl.tidy fun j d hj hd => ?_, rfl, rfl⟩
      cases hj
      rw [hc] at hd
      cases hd
      rwa [(hl.kept.exact hc).isEmpty_iff] at he

/-! ## Older records -/

namespace Tidy

variable {h : History}

/-- Without room below the records, no chunk has any. -/
theorem start_eq_zero (ht : h.Tidy) (hroom : ¬ h.hasRoom) {i : Nat} {c : Chunk}
    (hc : h.chunk? i = some c) : c.start = 0 := by
  have hi := ht.shaped.mem_of_chunk hc
  rw [hasRoom, ht.shaped.linked.tail] at hroom
  have hlow := ht.shaped.low
  cases hs : h.chunks.forth with
  | nil =>
    rw [hs] at hi
    exact absurd hi List.not_mem_nil
  | cons j js =>
    rw [hs] at hi hroom hlow
    rcases List.mem_cons.1 hi with rfl | hi
    · rw [List.head?_cons, Option.bind_some, hc] at hroom
      simpa using hroom
    · exact hlow i hi c hc

/-- A chunk with room is put below a history that has none. -/
theorem addOldest (ht : h.Tidy) (hroom : ¬ h.hasRoom) {n : Nat} (hn : 0 < n) :
    ∃ is, (h.addOldest n).Loose is ∧ (h.addOldest n).hasRoom ∧
      (h.addOldest n).records = h.records := by
  obtain ⟨i, hk, hi, hget, hrs⟩ := ht.kept.addOldest n
  have hnew : (h.addOldest n).chunk? i = some (Chunk.forOlder n) := by rw [hget, if_pos rfl]
  have hupper : h.Upper h.chunks.forth :=
    ⟨fun _ _ _ hc => (ht.exact hc).lt_iff.1 (ht.shaped.filled hc),
      fun _ _ _ hc => ht.start_eq_zero hroom hc, ht.shaped.high⟩
  have hother : ∀ j ∈ h.chunks.forth, (h.addOldest n).chunk? j = h.chunk? j := by
    intro j hj
    rw [hget, if_neg]
    rintro rfl
    exact hi hj
  refine ⟨_, (hupper.congr hother).loose hk fun _ c hc => ?_, ?_, hrs⟩
  · rw [hnew] at hc
    cases hc
    simp [Chunk.forOlder, Chunk.capacity]
  · rw [hasRoom, hk.linked.tail, List.head?_cons, Option.bind_some, hnew]
    simpa [Chunk.forOlder] using hn

end Tidy

/-- A record is put below the others, into the room that there is. -/
theorem Loose.pushOldest {h : History} {is : List Nat} (hl : h.Loose is) (hroom : h.hasRoom)
    (r : CachedRecord) : (h.pushOldest r).Tidy ∧ (h.pushOldest r).records = r.toRecord :: h.records := by
  rw [hasRoom, hl.kept.linked.tail] at hroom
  cases is with
  | nil => simp at hroom
  | cons i js =>
    obtain ⟨c, hc⟩ := hl.kept.exists_chunk (i := i) List.mem_cons_self
    rw [List.head?_cons, Option.bind_some, hc, Option.any_some, decide_eq_true_iff] at hroom
    have hexact := (hl.kept.exact hc).pushOldest hroom r
    have hrs := (hl.kept.exact hc).records_pushOldest hroom r
    have hrecords : (h.modify i (·.pushOldest r)).records = r.toRecord :: h.records := by
      rw [hl.kept.records_modify [] hc, hrs, hl.kept.records_split [] hc]
      rfl
    have hpush : h.pushOldest r = { h.modify i (·.pushOldest r) with size := h.size + 1 } := by
      rw [History.pushOldest, hl.kept.linked.tail]
      rfl
    have hkept : (h.pushOldest r).Kept (i :: js) := by
      rw [hpush]
      refine hl.kept.modify hc hexact ?_
      rw [hrecords, hl.kept.size, List.length_cons]
    have hself : (h.pushOldest r).chunk? i = some (c.pushOldest r) := by
      rw [hpush]
      exact chunk?_modify_self hc _
    have hother : ∀ j ∈ js, (h.pushOldest r).chunk? j = h.chunk? j := by
      intro j hj
      rw [hpush]
      refine chunk?_modify_of_ne ?_ _
      rintro rfl
      exact (List.nodup_cons.1 hl.kept.linked.nodup).1 hj
    have hloose : (h.pushOldest r).Loose (i :: js) := by
      refine (hl.upper.congr hother).loose hkept fun hne d hd => ?_
      rw [hself] at hd
      cases hd
      show c.stop = (c.setSlot (c.start - 1) (some r)).capacity
      rw [Chunk.capacity_setSlot]
      exact hl.high i (by rw [List.dropLast_cons_of_ne_nil hne]; exact List.mem_cons_self) c hc
    refine ⟨hloose.tidy fun j d hj hd => ?_, ?_⟩
    · cases hj
      rw [hself] at hd
      cases hd
      rw [hrs]
      exact List.cons_ne_nil r.toRecord _
    · rw [hpush]
      exact hrecords

/-! ## Dropping what is oldest -/

/-- The oldest record is taken out, and its chunk with the last one. -/
theorem Tidy.popOldest {h : History} (ht : h.Tidy) {r : Record} {rs : List Record}
    (hr : h.records = r :: rs) :
    ∃ i popped g, h.chunks.tail = some i ∧ h.popFrom i = (popped, g) ∧ popped.records = [r] ∧
      (g.removeIfEmpty i).1.records = [] ∧ (g.removeIfEmpty i).2.Tidy ∧
      (g.removeIfEmpty i).2.records = rs := by
  have hl := ht.loose
  generalize h.chunks.forth = is at hl
  cases is with
  | nil =>
    rw [hl.kept.records_eq] at hr
    cases hr
  | cons i js =>
    obtain ⟨c, hc⟩ := hl.kept.exists_chunk (i := i) List.mem_cons_self
    have hne : c.records ≠ [] := (ht.exact hc).lt_iff.1 (ht.shaped.filled hc)
    obtain ⟨r', cs, hcs⟩ := List.exists_cons_of_ne_nil hne
    have hsplit := hl.kept.records_split [] hc
    rw [hr, hcs] at hsplit
    obtain ⟨rfl, rfl⟩ := List.cons.inj hsplit
    obtain ⟨popped, g, hg, hpopped, hgk, hself, hother, hgrs⟩ := hl.kept.popFrom [] hc hcs
    have hgl : g.Loose (i :: js) := by
      refine (hl.upper.congr fun j hj => hother j ?_).loose hgk fun hne d hd => ?_
      · rintro rfl
        exact (List.nodup_cons.1 hl.kept.linked.nodup).1 hj
      · rw [hself] at hd
        cases hd
        rw [Chunk.Exact.stop_popOldest, Chunk.Exact.capacity_popOldest]
        exact hl.high i (by rw [List.dropLast_cons_of_ne_nil hne]; exact List.mem_cons_self) c hc
    have hdrop := hgl.dropEmpty
    rw [History.dropEmpty, hgk.linked.tail] at hdrop
    refine ⟨i, popped, g, ?_, hg, hpopped, hdrop.2.2, hdrop.1, hdrop.2.1.trans hgrs⟩
    rw [hl.kept.linked.tail, List.head?_cons]

theorem Tidy.dropRecords {h : History} (ht : h.Tidy) (sec : Int) {n : Nat}
    (hn : h.records.length ≤ n) :
    (History.dropRecords sec n h).2.Tidy ∧
      (History.dropRecords sec n h).1.records =
        h.records.takeWhile (fun r => decide (r.sec ≤ sec)) ∧
      (History.dropRecords sec n h).2.records =
        h.records.dropWhile fun r => decide (r.sec ≤ sec) := by
  induction n generalizing h with
  | zero =>
    have hnil := List.length_eq_zero_iff.1 (Nat.le_zero.1 hn)
    rw [History.dropRecords, hnil]
    exact ⟨ht, rfl, rfl⟩
  | succ n ih =>
    cases hrs : h.records with
    | nil =>
      have hold := ht.oldest?_eq
      rw [hrs] at hold
      rw [History.dropRecords, hold]
      cases h.chunks.tail <;> exact ⟨ht, rfl, hrs⟩
    | cons r rs =>
      obtain ⟨i, popped, g, htail, hg, hpopped, hnone, hgt, hgrs⟩ := ht.popOldest hrs
      have hold := ht.oldest?_eq
      rw [hrs, List.head?_cons] at hold
      rw [History.dropRecords, htail, hold]
      simp only []
      split
      · next hsec =>
        obtain ⟨ht', htake, hdrop⟩ := ih hgt (by
          rw [hrs, List.length_cons] at hn
          rw [hgrs]
          omega)
        rw [hgrs] at htake hdrop
        rw [hg, List.takeWhile_cons_of_pos (by simpa using hsec),
          List.dropWhile_cons_of_pos (by simpa using hsec)]
        refine ⟨ht', ?_, hdrop⟩
        simp only []
        rw [Released.records_append, Released.records_append, hpopped, hnone, htake]
        rfl
      · next hsec =>
        rw [List.takeWhile_cons_of_neg (by simpa using hsec),
          List.dropWhile_cons_of_neg (by simpa using hsec)]
        exact ⟨ht, rfl, hrs⟩

/-- **Dropping up to a second** drops the oldest records, as long as they are not later. -/
theorem Tidy.dropThrough {h : History} (ht : h.Tidy) (sec : Int) :
    (h.dropThrough sec).2.Tidy ∧
      (h.dropThrough sec).1.records = h.records.takeWhile (fun r => decide (r.sec ≤ sec)) ∧
      (h.dropThrough sec).2.records = h.records.dropWhile fun r => decide (r.sec ≤ sec) :=
  ht.dropRecords sec (Nat.le_of_eq ht.length_records)

end History

end HistoryCache
