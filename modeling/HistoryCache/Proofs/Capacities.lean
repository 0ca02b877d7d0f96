import HistoryCache.Proofs.Trim

/-!
# The chunks of a history

Chunks are charged for by their capacity, so this file looks at a history as the row of the capacities
of its chunks.  A chunk keeps its capacity for as long as it is there: whatever is put into its slots
or moved between them leaves the row as it was (`capacities_modify`).  A chunk that is let go of is
told of once, and those that are told of and those that are left are the ones that were there
(`History.Parts`), however far a removal goes.  It takes nothing but the links for that.

* `History.parts_dropThrough`, `History.parts_trim`: no chunk is lost on the way.
* `History.perm_releaseAll`: what is let go of with the whole history is all of it.
-/

namespace HistoryCache

namespace Arena

variable {α : Type}

theorem forth_modify (a : Arena α) (i : Nat) (f : α → α) : (a.modify i f).forth = a.forth := by
  have hnext : (a.modify i f).next? = a.next? := by
    funext j
    rw [next?, next?, modify, node?_updateNode]
    split
    · cases a.node? j <;> rfl
    · rfl
  rw [forth, forth, hnext]
  rfl

end Arena

namespace History

variable {h g : History}

def capacityAt (h : History) (i : Nat) : Option Nat := (h.chunk? i).map Chunk.capacity

/-- The capacities of the chunks, from the oldest to the newest. -/
def capacities (h : History) : List Nat := h.chunks.forth.filterMap h.capacityAt

/-- The chunks are linked. -/
def Strung (h : History) : Prop := ∃ is, h.chunks.Linked is

theorem Kept.strung {is : List Nat} (hk : h.Kept is) : h.Strung := ⟨is, hk.linked⟩

theorem Tidy.strung (ht : h.Tidy) : h.Strung := ht.kept.strung

theorem capacities_of_linked {is : List Nat} (hl : h.chunks.Linked is) :
    h.capacities = is.filterMap h.capacityAt := by
  rw [capacities, hl.forth_eq]

/-! ## What stays -/

/-- The chunks are the same, whatever they hold. -/
structure SameChunks (h g : History) : Prop where
  strung : h.Strung → g.Strung
  capacities : g.capacities = h.capacities

namespace SameChunks

theorem refl : h.SameChunks h := ⟨id, rfl⟩

theorem trans {k : History} (hg : h.SameChunks g) (hk : g.SameChunks k) : h.SameChunks k :=
  ⟨fun hs => hk.strung (hg.strung hs), hk.capacities.trans hg.capacities⟩

theorem of_chunks {g' : History} (hg : h.SameChunks g) (hchunks : g'.chunks = g.chunks) :
    h.SameChunks g' := by
  have hcapacities : g'.capacities = g.capacities := by
    rw [History.capacities, History.capacities, hchunks]
    refine List.filterMap_congr fun i _ => ?_
    rw [capacityAt, capacityAt, chunk?, chunk?, hchunks]
  refine ⟨fun hs => ?_, hcapacities.trans hg.capacities⟩
  rw [Strung, hchunks]
  exact hg.strung hs

theorem modify (h : History) (i : Nat) {f : Chunk → Chunk}
    (hf : ∀ c, (f c).capacity = c.capacity) : h.SameChunks (h.modify i f) := by
  refine ⟨fun ⟨is, hl⟩ => ⟨is, hl.modify i f⟩, ?_⟩
  rw [History.capacities, History.capacities]
  change (h.chunks.modify i f).forth.filterMap _ = _
  rw [Arena.forth_modify]
  refine List.filterMap_congr fun j _ => ?_
  rw [capacityAt, capacityAt, chunk?_modify]
  split
  · cases h.chunk? j with
    | none => rfl
    | some c => exact congrArg some (hf c)
  · rfl

theorem setSpot (h : History) (p : Spot) (r : Option CachedRecord) : h.SameChunks (h.setSpot p r) :=
  modify h p.chunk fun c => c.capacity_setSlot p.slot r

theorem put (h : History) (p : Spot) (r : CachedRecord) : h.SameChunks (h.put p r) :=
  (setSpot h p (some r)).of_chunks rfl

theorem move (h : History) (src dst : Spot) : h.SameChunks (h.move src dst) := by
  rw [History.move]
  split
  · exact (setSpot h src none).trans (setSpot _ dst _)
  · exact refl

theorem shiftUp (after : Spot) (srcs : List Spot) (dst : Spot) (h : History) :
    h.SameChunks (History.shiftUp after srcs dst h).2 := by
  induction srcs generalizing dst h with
  | nil => exact refl
  | cons src older ih =>
    rw [History.shiftUp]
    split
    · exact refl
    · exact (move h src dst).trans (ih src _)

theorem makeRoom (h : History) (after dst : Spot) : h.SameChunks (h.makeRoom after dst).2 :=
  shiftUp after _ dst h

theorem reserve? {top : Spot} (hopen : h.reserve? = some (top, g)) : h.SameChunks g := by
  rw [History.reserve?] at hopen
  split at hopen
  · split at hopen
    · split at hopen
      · cases hopen
        exact modify h _ fun _ => rfl
      · cases hopen
    · cases hopen
  · cases hopen

theorem pushOldest (h : History) (r : CachedRecord) : h.SameChunks (h.pushOldest r) := by
  rw [History.pushOldest]
  split
  · next i _ =>
    have hsame : h.SameChunks (h.modify i (·.pushOldest r)) :=
      modify h i fun c => c.capacity_setSlot (c.start - 1) (some r)
    exact hsame.of_chunks rfl
  · exact refl

end SameChunks

/-! ## What is added -/

theorem filterMap_capacityAt_link {is : List Nat} {i : Nat} {c : Chunk} (hi : i ∉ is)
    (hget : ∀ j, g.chunk? j = if i = j then some c else h.chunk? j) :
    is.filterMap g.capacityAt = is.filterMap h.capacityAt ∧ g.capacityAt i = some c.capacity := by
  refine ⟨List.filterMap_congr fun j hj => ?_, ?_⟩
  · rw [capacityAt, capacityAt, hget, if_neg]
    rintro rfl
    exact hi hj
  · rw [capacityAt, hget, if_pos rfl]
    rfl

theorem capacities_addOldest (hs : h.Strung) (n : Nat) :
    (h.addOldest n).Strung ∧ (h.addOldest n).capacities = n :: h.capacities := by
  obtain ⟨is, hl⟩ := hs
  have hl' : h.chunks.Linked ([] ++ is) := hl
  obtain ⟨hlink, hnew, hget⟩ := hl'.link (Chunk.forOlder n)
  rw [← hl.tail] at hlink hnew hget
  obtain ⟨hsame, hself⟩ := filterMap_capacityAt_link (g := h.addOldest n) (h := h) hnew hget
  have hcapacity : (Chunk.forOlder n).capacity = n := Array.size_replicate
  refine ⟨⟨_, hlink⟩, ?_⟩
  rw [capacities_of_linked (h := h.addOldest n) hlink, List.nil_append,
    List.filterMap_cons_some (hself.trans (congrArg some hcapacity)), capacities_of_linked hl]
  exact congrArg _ hsame

theorem capacities_addNewest (hs : h.Strung) (n : Nat) :
    (h.addNewest n).2.Strung ∧ (h.addNewest n).2.capacities = h.capacities ++ [n] := by
  obtain ⟨is, hl⟩ := hs
  have hl' : h.chunks.Linked (is ++ []) := by rw [List.append_nil]; exact hl
  obtain ⟨hlink, hnew, hget⟩ := hl'.link (Chunk.forNewer n)
  rw [List.append_nil] at hnew
  rw [List.head?_nil] at hlink hnew hget
  obtain ⟨hsame, hself⟩ := filterMap_capacityAt_link (g := (h.addNewest n).2) (h := h) hnew hget
  have hcapacity : (Chunk.forNewer n).capacity = n := Array.size_replicate
  refine ⟨⟨_, hlink⟩, ?_⟩
  rw [capacities_of_linked (h := (h.addNewest n).2) hlink, List.filterMap_append, hsame,
    List.filterMap_cons_some (hself.trans (congrArg some hcapacity)), capacities_of_linked hl]
  rfl

/-! ## What is let go of -/

/-- The chunks that were let go of and those that are left are the ones that were there. -/
structure Parts (h : History) (gone : Released) (g : History) : Prop where
  strung : g.Strung
  perm : (gone.chunks ++ g.capacities).Perm h.capacities

namespace Parts

variable {k : History} {gone gone' : Released}

theorem of_same (hs : h.Strung) (hsame : h.SameChunks g) (hgone : gone.chunks = []) :
    h.Parts gone g where
  strung := hsame.strung hs
  perm := by rw [hgone, List.nil_append, hsame.capacities]

theorem trans (hg : h.Parts gone g) (hk : g.Parts gone' k) : h.Parts (gone ++ gone') k where
  strung := hk.strung
  perm := by
    change (gone.chunks ++ gone'.chunks ++ k.capacities).Perm _
    rw [List.append_assoc]
    exact (hk.perm.append_left _).trans hg.perm

end Parts

theorem parts_popFrom (hs : h.Strung) (i : Nat) : h.Parts (h.popFrom i).1 (h.popFrom i).2 := by
  have hsame : h.SameChunks (h.modify i fun c => c.popOldest.2) :=
    .modify h i Chunk.Exact.capacity_popOldest
  rw [popFrom]
  split
  · exact .of_same hs (hsame.of_chunks rfl) rfl
  · exact .of_same hs hsame rfl

theorem parts_removeChunk (hs : h.Strung) (i : Nat) :
    h.Parts (h.removeChunk i).1 (h.removeChunk i).2 := by
  obtain ⟨is, hl⟩ := hs
  rw [removeChunk]
  cases hc : h.chunks.get? i with
  | none =>
    have hnone : h.chunks.unlink i = none := by
      rw [Arena.unlink]
      rw [Arena.get?, Option.map_eq_none_iff] at hc
      rw [hc]
      rfl
    rw [hnone]
    exact .of_same ⟨is, hl⟩ .refl rfl
  | some c =>
    obtain ⟨js, ks, rfl⟩ := List.append_of_mem (hl.get?_isSome_iff.1 (by rw [hc]; rfl))
    obtain ⟨b, hb, hl', hget⟩ := hl.unlink hc
    rw [hb]
    simp only []
    generalize h.size - c.contents.length = n
    have hother : ∀ ls : List Nat, i ∉ ls →
        ls.filterMap (⟨b, n⟩ : History).capacityAt = ls.filterMap h.capacityAt := by
      intro ls hi
      refine List.filterMap_congr fun j hj => ?_
      rw [capacityAt, capacityAt, chunk?, hget, if_neg]
      · rfl
      · rintro rfl
        exact hi hj
    have hi := (List.nodup_cons.1 (List.nodup_middle.1 hl.nodup)).1
    have hself : h.capacityAt i = some c.capacity := congrArg (Option.map Chunk.capacity) hc
    refine ⟨⟨_, hl'⟩, ?_⟩
    rw [capacities_of_linked (h := ⟨b, n⟩) hl', capacities_of_linked hl, List.filterMap_append,
      List.filterMap_append, List.filterMap_cons_some hself,
      hother js fun hj => hi (List.mem_append_left ks hj),
      hother ks fun hk => hi (List.mem_append_right js hk)]
    change (c.capacity :: (js.filterMap h.capacityAt ++ ks.filterMap h.capacityAt)).Perm _
    exact List.perm_middle.symm

theorem parts_removeIfEmpty (hs : h.Strung) (i : Nat) :
    h.Parts (h.removeIfEmpty i).1 (h.removeIfEmpty i).2 := by
  rw [removeIfEmpty]
  split
  · exact parts_removeChunk hs i
  · exact .of_same hs .refl rfl

theorem parts_dropEmpty (hs : h.Strung) : h.Parts h.dropEmpty.1 h.dropEmpty.2 := by
  rw [dropEmpty]
  cases h.chunks.tail with
  | none => exact .of_same hs .refl rfl
  | some i => exact parts_removeIfEmpty hs i

theorem parts_dropRecords (hs : h.Strung) (sec : Int) (n : Nat) :
    h.Parts (dropRecords sec n h).1 (dropRecords sec n h).2 := by
  induction n generalizing h with
  | zero => exact .of_same hs .refl rfl
  | succ n ih =>
    rw [dropRecords]
    split
    · next i r _ _ =>
      split
      · have hpop := parts_popFrom hs i
        have hremove := parts_removeIfEmpty hpop.strung i
        exact (hpop.trans hremove).trans (ih hremove.strung)
      · exact .of_same hs .refl rfl
    · exact .of_same hs .refl rfl

theorem parts_dropThrough (hs : h.Strung) (sec : Int) :
    h.Parts (h.dropThrough sec).1 (h.dropThrough sec).2 := parts_dropRecords hs sec h.size

theorem parts_popSecond (hs : h.Strung) (sec : Int) (i n : Nat) :
    h.Parts (popSecond sec i n h).1 (popSecond sec i n h).2 := by
  induction n generalizing h with
  | zero => exact .of_same hs .refl rfl
  | succ n ih =>
    rw [popSecond]
    split
    · split
      · have hpop := parts_popFrom hs i
        exact hpop.trans (ih hpop.strung)
      · exact .of_same hs .refl rfl
    · exact .of_same hs .refl rfl

theorem parts_trimChunks (hs : h.Strung) (boundary newest : Int) (n : Nat) :
    h.Parts (trimChunks boundary newest n h).2.1 (trimChunks boundary newest n h).2.2 := by
  induction n generalizing h with
  | zero => exact .of_same hs .refl rfl
  | succ n ih =>
    have hsame : h.Parts {} h := .of_same hs .refl rfl
    rw [trimChunks]
    split
    · exact hsame
    · next i _ =>
      split
      · exact hsame
      · next j _ =>
        split
        · next last _ _ _ _ _ =>
          split
          · exact hsame
          · have hpop := parts_popSecond hs last.sec j ((h.chunk? j).elim 0 Chunk.size)
            have hremove := parts_removeChunk hpop.strung i
            exact (hpop.trans hremove).trans (ih hremove.strung)
        · exact hsame

theorem parts_trim (hs : h.Strung) (boundary : Int) :
    h.Parts (h.trim boundary).2.1 (h.trim boundary).2.2 := by
  rw [trim]
  split
  · exact parts_trimChunks hs _ _ _
  · exact .of_same hs .refl rfl

/-- **All of a history** is let go of with it. -/
theorem perm_releaseAll (ht : h.Tidy) :
    h.releaseAll.records.Perm h.records ∧ h.releaseAll.chunks.Perm h.capacities := by
  have hk := ht.kept
  have hperm := hk.linked.values_perm
  rw [releaseAll]
  constructor
  · rw [Released.records, List.map_flatMap]
    refine (hperm.flatMap_right _).trans (List.Perm.of_eq ?_)
    rw [hk.records_eq, List.filterMap_eq_flatMap_toList, List.flatMap_assoc]
    refine List.flatMap_congr fun i hi => ?_
    obtain ⟨c, hc⟩ := hk.exists_chunk hi
    rw [recordsAt_eq hc, show h.chunks.get? i = some c from hc, Option.toList_some,
      List.flatMap_singleton, (hk.exact hc).contents_eq]
  · refine (hperm.map _).trans (List.Perm.of_eq ?_)
    rw [List.map_filterMap]
    rfl

end History

end HistoryCache
