import HistoryCache.Proofs.Balance

/-!
# The books of an item at work

An item that is out of the map is charged for by what its history is at the moment
(`Item.charges`).  Whatever is done to the history, and however it ends, the cache is balanced with
what the item is charged for afterwards.  Records that were put below the history before memory ran
out stay and are paid for; a record that found no slot gives back what was taken for it.

* `Balanced.prepend`, `Balanced.write`, `Balanced.trim`: the three ways in which a history changes.
-/

namespace HistoryCache

/-! ## Histories -/

theorem History.SameChunks.charges {h g : History} (hsame : h.SameChunks g) :
    g.charges = chunkCharges h.capacities + recordCharges g.records := by
  rw [History.charges, hsame.capacities]

theorem History.Tidy.charges_addOldest {h : History} (ht : h.Tidy) {n : Nat}
    (hrecords : (h.addOldest n).records = h.records) :
    (h.addOldest n).charges = h.charges + {.block (Chunk.bytes n)} := by
  rw [charges, charges, (capacities_addOldest ht.strung n).2, hrecords, chunkCharges_cons]
  abel

namespace Cache.Balanced

variable {c c' : Cache} {E : Charges} {now : Int} {id : ItemId} {item item' : Item} {h h' : History}

/-- What a history has let go of is given back. -/
theorem parts {g : History} {gone : Released} (hb : c.Balanced (E + h.charges))
    (hparts : h.Parts gone g) (hrecords : (gone.records ++ g.records).Perm h.records) :
    (c.release gone).2.Balanced (E + g.charges) := by
  rw [← hparts.charges hrecords, add_comm gone.charges, ← add_assoc] at hb
  exact hb.release

/-! ## Below the history -/

theorem openOldest (hb : c.Balanced (E + h.charges)) (ht : h.Tidy) {waiting : List Record}
    {result : Except CacheFailure History} (hopen : c.openOldest now id waiting h = (result, c')) :
    (∀ g, result = .ok g → c'.Balanced (E + g.charges)) ∧
      ∀ e, result = .error e → c'.Balanced (E + h.charges) := by
  rw [Cache.openOldest] at hopen
  split at hopen
  · cases hopen
    refine ⟨fun _ hg => ?_, fun _ herror => by cases herror⟩
    cases hg
    exact hb
  · next hroom =>
    simp only [] at hopen
    split at hopen
    · next c₁ heq =>
      cases hopen
      refine ⟨fun _ hg => ?_, fun _ herror => by cases herror⟩
      cases hg
      obtain ⟨-, -, -, hrecords⟩ := ht.addOldest hroom (History.capacityFor_pos _)
      rw [ht.charges_addOldest hrecords, ← add_assoc]
      exact hb.charge heq
    · next e c₁ heq =>
      cases hopen
      refine ⟨fun _ hok => (by cases hok), fun _ _ => ?_⟩
      have hcharged := hb.charge heq
      rw [add_paid_error] at hcharged
      exact hcharged

/-- A record for which what it needs was taken is put into the slot that was opened. -/
theorem pushedOldest {is : List Nat} {r : CachedRecord}
    (hb : c.Balanced (E + h.charges + r.toRecord.value.charges)) (hloose : h.Loose is)
    (hroom : h.hasRoom) :
    c.Balanced (E + (h.pushOldest r).charges) := by
  obtain ⟨-, hpushed⟩ := hloose.pushOldest hroom r
  rw [(History.SameChunks.pushOldest h r).charges, hpushed, recordCharges_cons]
  rw [History.charges] at hb
  convert hb using 1
  abel

/-- Records are put below a history one by one, however far that goes. -/
theorem fill {rs : List Record} {result : Except CacheFailure Unit}
    (hb : c.Balanced (E + h.charges)) (ht : h.Tidy)
    (hfill : Cache.fill now id rs h c = (result, h', c')) : c'.Balanced (E + h'.charges) := by
  induction rs generalizing c h with
  | nil =>
    cases hfill
    exact hb
  | cons r older ih =>
    rw [Cache.fill] at hfill
    split at hfill
    · next e c₁ heq =>
      cases hfill
      exact (hb.openOldest ht heq).2 e rfl
    · next g c₁ heq =>
      have hopened := (hb.openOldest ht heq).1 g rfl
      obtain ⟨is, hloose, hroom, -⟩ := openOldest_ok ht heq
      split at hfill
      · next value c₂ heq₂ =>
        obtain ⟨hpush, -⟩ := hloose.pushOldest hroom ⟨r.time, value⟩
        have hheld := hopened.holdValue heq₂
        rw [paid, ← (holdValue_ok heq₂).2] at hheld
        exact ih (pushedOldest hheld hloose hroom) hpush hfill
      · next e c₂ heq₂ =>
        have hheld := hopened.holdValue heq₂
        rw [add_paid_error] at hheld
        obtain ⟨-, hleft, hgone⟩ := hloose.dropEmpty
        have hparts := hheld.parts (History.parts_dropEmpty hloose.kept.strung)
          (by rw [hgone, hleft]; rfl)
        generalize g.dropEmpty = dropped at hfill hparts
        cases hfill
        exact hparts

theorem prepend {records : List Record} {result : Except CacheFailure Unit}
    (hb : c.Balanced (E + item.charges)) (ht : item.history.Tidy)
    (hprepend : c.prepend now id records item = (result, item', c')) :
    c'.Balanced (E + item'.charges) := by
  rw [Cache.prepend] at hprepend
  generalize hfill : Cache.fill now id (belowHistory item.history records) item.history c = filled
    at hprepend
  obtain ⟨result', h, c₁⟩ := filled
  cases hprepend
  rw [Item.charges, ← add_assoc] at hb ⊢
  exact hb.fill ht hfill

/-! ## Above the history -/

theorem openNewest (hb : c.Balanced (E + chunkCharges h.capacities)) (ht : h.Tidy)
    {result : Except CacheFailure (Spot × History)}
    (hopen : c.openNewest now id h = (result, c')) :
    (∀ top g, result = .ok (top, g) → c'.Balanced (E + chunkCharges g.capacities)) ∧
      ∀ e, result = .error e → c'.Balanced (E + chunkCharges h.capacities) := by
  rw [Cache.openNewest] at hopen
  split at hopen
  · next opened heq =>
    cases hopen
    refine ⟨fun _ g hg => ?_, fun _ herror => by cases herror⟩
    cases hg
    rw [(History.SameChunks.reserve? heq).capacities]
    exact hb
  · simp only [] at hopen
    split at hopen
    · next c₁ heq =>
      have hcharged := hb.charge heq
      obtain ⟨-, hcapacities⟩ := History.capacities_addNewest ht.strung
        (History.capacityFor (h.size + 1))
      generalize h.addNewest _ = opened at hopen hcapacities
      cases hopen
      refine ⟨fun _ g hg => ?_, fun _ herror => by cases herror⟩
      cases hg
      rw [hcapacities, chunkCharges_append, ← add_assoc]
      exact hcharged
    · next e c₁ heq =>
      cases hopen
      refine ⟨fun _ _ hok => (by cases hok), fun _ _ => ?_⟩
      have hcharged := hb.charge heq
      rw [add_paid_error] at hcharged
      exact hcharged

/-- What a record needs is taken with its slot or not at all. -/
theorem reserve {r : Record} (hb : c.Balanced (E + chunkCharges h.capacities)) (ht : h.Tidy)
    {result : Except CacheFailure (CachedRecord × Spot × History)}
    (hreserve : c.reserve now id r h = (result, c')) :
    (∀ kept top g, result = .ok (kept, top, g) →
      c'.Balanced (E + r.value.charges + chunkCharges g.capacities)) ∧
      ∀ e, result = .error e → c'.Balanced (E + chunkCharges h.capacities) := by
  rw [Cache.reserve] at hreserve
  split at hreserve
  · next e c₁ heq =>
    cases hreserve
    have hheld := hb.holdValue heq
    rw [add_paid_error] at hheld
    exact ⟨fun _ _ _ hok => (by cases hok), fun _ _ => hheld⟩
  · next value c₁ heq =>
    have hheld := hb.holdValue heq
    rw [paid, add_assoc, add_comm (chunkCharges _), ← add_assoc] at hheld
    split at hreserve
    · next opened c₂ heq₂ =>
      cases hreserve
      refine ⟨fun _ top g hok => ?_, fun _ herror => by cases herror⟩
      cases hok
      exact (hheld.openNewest ht heq₂).1 top g rfl
    · next e c₂ heq₂ =>
      cases hreserve
      refine ⟨fun _ _ _ hok => (by cases hok), fun _ _ => ?_⟩
      have hopened := (hheld.openNewest ht heq₂).2 e rfl
      rw [add_assoc, add_comm r.value.charges, ← add_assoc, ← (holdValue_ok heq).2] at hopened
      exact hopened.releaseValue

/-- An item with its chunks and with its records told apart. -/
theorem apart (hb : c.Balanced (E + item.charges)) :
    c.Balanced (E + {.block Item.entryBytes} + recordCharges item.history.records +
      chunkCharges item.history.capacities) := by
  rw [Item.charges, History.charges, add_comm (chunkCharges _), ← add_assoc, ← add_assoc] at hb
  exact hb

/-- A record is put into the slot that was taken for it. -/
theorem added {r : Record} {g k : History}
    (hb : c.Balanced (E + {.block Item.entryBytes} + recordCharges item.history.records +
      r.value.charges + chunkCharges g.capacities))
    (hsame : g.SameChunks k) (hrecords : k.records.Perm (r :: item.history.records)) :
    c.Balanced (E + ({ item with history := k } : Item).charges) := by
  rw [Item.charges, hsame.charges, recordCharges_perm hrecords, recordCharges_cons]
  convert hb using 1
  abel

theorem append {r : Record} {result : Except CacheFailure Unit}
    (hb : c.Balanced (E + item.charges)) (ht : item.history.Tidy)
    (happend : c.append now id r item = (result, item', c')) : c'.Balanced (E + item'.charges) := by
  rw [Cache.append] at happend
  split at happend
  · next e c₁ heq =>
    cases happend
    have hreserved := (hb.apart.reserve ht heq).2 e rfl
    rw [Item.charges, History.charges, add_comm (chunkCharges _), ← add_assoc, ← add_assoc]
    exact hreserved
  · next kept top g c₁ heq =>
    cases happend
    have hreserved := (hb.apart.reserve ht heq).1 kept top g rfl
    obtain ⟨-, ⟨_, _, _, hok, rfl, hopens⟩ | ⟨n, herror⟩⟩ := reserve_spec ht heq
    · cases hok
      obtain ⟨-, hrecords⟩ := hopens.put ht kept
      refine hreserved.added (.put g top kept) ?_
      rw [hrecords]
      exact List.perm_append_singleton _ _
    · cases herror

theorem insert {r : Record} {result : Except CacheFailure Unit}
    (hb : c.Balanced (E + item.charges)) (hs : item.history.Sorted)
    (hinsert : c.insert now id r item = (result, item', c')) : c'.Balanced (E + item'.charges) := by
  rw [Cache.insert] at hinsert
  split at hinsert
  · cases hinsert
    exact hb
  next after hafter =>
  split at hinsert
  · next e c₁ heq =>
    cases hinsert
    have hreserved := (hb.apart.reserve hs.tidy heq).2 e rfl
    rw [Item.charges, History.charges, add_comm (chunkCharges _), ← add_assoc, ← add_assoc]
    exact hreserved
  · next kept top g c₁ heq =>
    have hreserved := (hb.apart.reserve hs.tidy heq).1 kept top g rfl
    obtain ⟨-, ⟨_, _, _, hok, rfl, hopens⟩ | ⟨n, herror⟩⟩ := reserve_spec hs.tidy heq
    · cases hok
      obtain ⟨p, g', hroom, -, hrecords⟩ := hopens.insertAt hs.tidy hs.inOrder kept hafter
      have hsame := History.SameChunks.makeRoom g after top
      rw [hroom] at hinsert hsame
      cases hinsert
      refine hreserved.added (hsame.trans (.put g' p kept)) ?_
      rw [hrecords]
      exact perm_placed kept.toRecord _
    · cases herror

/-! ## Dropping -/

theorem dropThrough (hb : c.Balanced (E + item.charges)) (ht : item.history.Tidy) (sec : Int) :
    (c.dropThrough sec item).2.Balanced (E + (c.dropThrough sec item).1.charges) := by
  obtain ⟨-, hgone, hleft⟩ := ht.dropThrough sec
  rw [Item.charges, ← add_assoc] at hb ⊢
  have hperm : ((item.history.dropThrough sec).1.records ++
      (item.history.dropThrough sec).2.records).Perm item.history.records := by
    rw [hgone, hleft, List.takeWhile_append_dropWhile]
  exact hb.parts (History.parts_dropThrough ht.strung sec) hperm

/-- **A trim** gives back what it drops. -/
theorem trim (hb : c.Balanced (E + item.charges)) (hs : item.history.Sorted)
    (htrim : c.trim now item = (item', c')) : c'.Balanced (E + item'.charges) := by
  rw [Cache.trim] at htrim
  split at htrim
  · cases htrim
    exact hb
  have hparts := History.parts_trim hs.tidy.strung (item.boundary now)
  rcases hs.tidy.trim hs.inOrder (item.boundary now) with hnone | ⟨sec, gone, g, hsome, htrimmed⟩
  · rw [hnone] at htrim
    cases htrim
    exact hb
  · rw [hsome] at htrim hparts
    cases htrim
    rw [Item.charges, ← add_assoc] at hb ⊢
    exact hb.parts hparts htrimmed.perm

/-- **A written record** is taken, or its place is dropped, or nothing happens. -/
theorem write {r : Record} {result : Except CacheFailure Unit}
    (hb : c.Balanced (E + item.charges)) (hs : item.history.Sorted)
    (hwrite : c.write now id r item = (result, item', c')) : c'.Balanced (E + item'.charges) := by
  rw [Cache.write] at hwrite
  split at hwrite
  · split at hwrite
    · exact hb.append hs.tidy hwrite
    · split at hwrite
      · exact hb.insert hs hwrite
      · generalize hitem : { item with tailWrites := item.tailWrites + 1 } = item₁ at hwrite
        have hb₁ : c.Balanced (E + item₁.charges) := by rw [← hitem]; exact hb
        have hdropped := dropThrough hb₁ (by rw [← hitem]; exact hs.tidy) r.sec
        generalize c.dropThrough r.sec item₁ = dropped at hwrite hdropped
        cases hwrite
        exact hdropped
  · split at hwrite
    · cases hwrite
      exact hb
    · exact hb.append hs.tidy hwrite
  · exact hb.append hs.tidy hwrite

end Cache.Balanced

end HistoryCache
