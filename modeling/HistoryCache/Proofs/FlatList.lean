import HistoryCache.Proofs.Lifecycle
import HistoryCache.Proofs.Representation

/-!
# Cached histories as flat lists

A history is a row of chunks of various sizes, with free slots at its two ends, that grows at either
end and moves records across chunks to make room.  To those who use it, it is one flat list of
records in the order of time.  Here are its two ways to grow as functions on such lists, `Flat.write`
for a written record and `Flat.older` for records that were read, and what the chunks do is what
these say (`Traffic.flat_of_possible`): on success all of it, and for want of memory nothing of a
write and the newest part of what was read.

A slot does not keep the record that was put in but a copy with references to pooled texts
(`CachedRecord`), and the list is of the copies of those copies that come out again
(`CachedRecord.toRecord`).  That they are the records that were put in is part of what is proved.
-/

namespace HistoryCache

namespace Flat

/-- What a written record makes of a list: it follows the last record that is not later, an empty
list takes it if it may, and a record from before the list costs that the records of the second
written and of earlier ones. -/
def write (mayStart : Bool) (r : Record) (rs : List Record) : List Record :=
  if rs.any (fun x => decide (x.time ≤ r.time)) || (rs.isEmpty && mayStart) then
    rs.takeWhile (fun x => decide (x.time ≤ r.time)) ++
      r :: rs.dropWhile fun x => decide (x.time ≤ r.time)
  else rs.filter fun x => decide (r.sec < x.sec)

/-- Those of some records that fall into seconds before a list. -/
def older (records rs : List Record) : List Record :=
  records.filter fun r => rs.head?.all fun oldest => decide (r.sec < oldest.sec)

variable {rs : List Record} {r : Record}

/-- In the order of time, what is not later than a record comes first. -/
theorem placed_eq (ho : InOrder rs) : Cache.placed r rs =
    rs.takeWhile (fun x => decide (x.time ≤ r.time)) ++
      r :: rs.dropWhile fun x => decide (x.time ≤ r.time) := by
  have hdown : rs.Pairwise fun a b =>
      decide (b.time ≤ r.time) = true → decide (a.time ≤ r.time) = true := by
    refine ho.imp fun {a b} hab hb => ?_
    rw [decide_eq_true_iff] at hb ⊢
    exact Timestamp.le_trans hab hb
  rw [takeWhile_eq_filter_of_pairwise hdown, dropWhile_eq_filter_of_pairwise hdown, Cache.placed]

theorem write_of_any {mayStart : Bool} (ho : InOrder rs)
    (h : rs.any (fun x => decide (x.time ≤ r.time)) = true ∨ rs = [] ∧ mayStart = true) :
    write mayStart r rs = Cache.placed r rs := by
  rw [write, placed_eq ho, if_pos]
  rcases h with h | ⟨rfl, h⟩
  · rw [h, Bool.true_or]
  · rw [h]
    rfl

theorem write_of_before {mayStart : Bool} (ho : InOrder rs) {oldest : Record}
    (holdest : rs.head? = some oldest) (h : ¬ oldest.time ≤ r.time) :
    write mayStart r rs = rs.filter fun x => decide (r.sec < x.sec) := by
  rw [write, if_neg]
  have hnone : rs.any (fun x => decide (x.time ≤ r.time)) = false := by
    rw [List.any_eq_false]
    intro x hx
    rw [decide_eq_true_iff]
    exact fun hle => h (Timestamp.le_trans (ho.head_le holdest x hx) hle)
  have hsome : rs.isEmpty = false := by
    cases rs with
    | nil => cases holdest
    | cons => rfl
  rw [hnone, hsome]
  simp

theorem write_nil : write false r [] = [] := rfl

end Flat

/-- Whether an item that is empty may start with a record: nothing older is missing from it then,
as far as the item vouches for. -/
def Item.mayStartWith (item : Item) (r : Record) : Bool :=
  item.cachedAll || item.coveredFrom.all fun s => decide (s ≤ r.sec)

theorem Item.Takes.records {item item' : Item} {r : Record} (h : item.Takes r item')
    (ho : InOrder item.history.records) :
    item'.history.records = Flat.write (item.mayStartWith r) r item.history.records := by
  cases h with
  | placed g htidy hrecords hnotBelow hvouches =>
    change g.records = _
    rw [hrecords, Flat.write_of_any ho]
    cases hold : item.history.records with
    | nil =>
      refine Or.inr ⟨rfl, ?_⟩
      rw [mayStartWith, Bool.or_eq_true, Option.all_eq_true]
      refine (hvouches hold).imp_right fun hcovered s hs => ?_
      exact decide_eq_true (hcovered s hs)
    | cons oldest rest =>
      left
      rw [hold] at hnotBelow
      rw [List.any_cons, decide_eq_true (hnotBelow oldest rfl), Bool.true_or]
  | ignored s hempty hnotAll hcovered hbefore =>
    change item.history.records = _
    have hnot : item.mayStartWith r = false := by
      rw [mayStartWith, hnotAll, hcovered, Option.all_some, Bool.false_or, decide_eq_false_iff_not]
      omega
    rw [hempty, hnot, Flat.write_nil]
  | dropped g oldest htidy holdest hbelow hrecords =>
    change g.records = _
    rw [hrecords, ho.dropWhile_sec, Flat.write_of_before ho holdest hbelow]

/-- A history that reads as a flat list. -/
structure History.Flat (h : History) : Prop where
  inOrder : InOrder h.records
  size : h.size = h.records.length
  /-- What is read from a time back is the list up to that time, newest first. -/
  reads : ∀ t, h.backFrom t = (h.records.filter fun r => decide (r.time ≤ t)).reverse

theorem History.Sorted.flat {h : History} (hs : h.Sorted) : h.Flat :=
  ⟨hs.inOrder, hs.tidy.length_records.symm, fun t => hs.tidy.backFrom_eq hs.inOrder t⟩

/-- **The chunks** of a cached item do as their flat list does. -/
theorem Traffic.flat_of_possible {config : Config} {w : Traffic} (hw : Possible config w)
    {id : ItemId} {item : Item} (hid : w.cache.items[id]? = some item) :
    item.history.Flat ∧
    -- a written record
    (∀ (c c' : Cache) (now : Int) (pins : Nat) (r : Record) (result : Except CacheFailure Unit)
        (item' : Item), c.write now id r { item with pins := pins } = (result, item', c') →
      item'.history.Flat ∧
      (result = .ok () ∧ item'.history.records =
          Flat.write (item.mayStartWith r) r item.history.records ∨
        (∃ bytes, result = .error (.outOfMemory bytes)) ∧ item' = { item with pins := pins })) ∧
    -- older records that were read
    (∀ (c c' : Cache) (now : Int) (records : List Record) (result : Except CacheFailure Unit)
        (item' : Item), InOrder records → c.prepend now id records item = (result, item', c') →
      item'.history.Flat ∧ item' = { item with history := item'.history } ∧
      (result = .ok () ∧ item'.history.records =
          Flat.older records item.history.records ++ item.history.records ∨
        (∃ bytes, result = .error (.outOfMemory bytes)) ∧
          ∃ taken, taken <:+ Flat.older records item.history.records ∧
            item'.history.records = taken ++ item.history.records)) ∧
    -- what is kept of a record, whatever its kind, is read back as that record
    ∀ (c c' : Cache) (now : Int) (r : Record) (value : CachedValue),
      c.holdValue now id r.value = (.ok value, c') →
      CachedRecord.toRecord ⟨r.time, value⟩ = r := by
  have hs := hw.sound.sorted.sorted id item hid
  refine ⟨hs.flat, fun c c' now pins r result item' hwrite => ?_,
    fun c c' now records result item' ho hprepend => ?_, fun _ _ _ _ _ hhold =>
      (Cache.holdValue_ok hhold).2⟩
  · have hs' : ({ item with pins := pins } : Item).history.Sorted := hs
    obtain ⟨-, ⟨hok, htakes⟩ | ⟨rfl, herror⟩⟩ := Cache.write_spec hs'.tidy hs'.inOrder hwrite
    · exact ⟨(htakes.sorted hs').flat, Or.inl ⟨hok, htakes.records hs'.inOrder⟩⟩
    · exact ⟨hs.flat, Or.inr ⟨herror, rfl⟩⟩
  · obtain ⟨g, taken, rfl, htidy, -, hsuffix, hrecords, hresult⟩ :=
      Cache.prepend_spec hs.tidy ho hprepend
    have hg : g.Sorted := Cache.sorted_of_below hs ho htidy hsuffix hrecords
    refine ⟨hg.flat, rfl, ?_⟩
    rcases hresult with ⟨hok, rfl⟩ | herror
    · exact Or.inl ⟨hok, hrecords⟩
    · exact Or.inr ⟨herror, taken, hsuffix, hrecords⟩

/-- The service that has read two numbers is one that steps lead to. -/
theorem Traffic.possible_servedService : Possible {} ⟨servedService, []⟩ := by
  have h₀ : Possible {} ⟨newService, []⟩ := .new 1000 newService new_newService
  have h₁ : Possible {} ⟨newService.enable 0, []⟩ := (closed_possible {}).elsewhere h₀ rfl rfl rfl
  exact h₁.execute (fun _ _ _ => rfl) _ ()

/-- A number is written between the two. -/
theorem Traffic.flat_between : ∃ (item item' : Item) (c' : Cache),
    servedService.cache.items[7]? = some item ∧
    servedService.cache.write 1000 7 ⟨⟨992, 0⟩, .uint 3⟩ { item with pins := 1 } =
      (.ok (), item', c') ∧
    item'.history.records.map Record.sec = [990, 992, 995] := by
  have hitem : (servedService.cache.items[7]?).map (fun item =>
      (item.history.records,
        (servedService.cache.write 1000 7 ⟨⟨992, 0⟩, .uint 3⟩ { item with pins := 1 }).1)) =
      some ([⟨⟨990, 0⟩, .uint 1⟩, ⟨⟨995, 0⟩, .uint 2⟩], .ok ()) := by cbv
  obtain ⟨item, hid, hitem⟩ := Option.map_eq_some_iff.1 hitem
  obtain ⟨hold, hok⟩ := Prod.mk.inj hitem
  generalize hwrite : servedService.cache.write 1000 7 ⟨⟨992, 0⟩, .uint 3⟩
    { item with pins := 1 } = written at hok
  obtain ⟨result, item', c'⟩ := written
  cases hok
  refine ⟨item, item', c', hid, hwrite, ?_⟩
  obtain ⟨-, hwrites, -⟩ := flat_of_possible possible_servedService hid
  obtain ⟨-, ⟨-, hrecords⟩ | ⟨⟨_, herror⟩, -⟩⟩ := hwrites _ _ _ _ _ _ _ hwrite
  · rw [hrecords, hold]
    cases item.mayStartWith _ <;> rfl
  · cases herror

end HistoryCache
