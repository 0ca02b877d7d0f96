import HistoryCache.Proofs.Advances
import Mathlib

/-!
# Records that are cached twice

A write puts its records into the store first and offers them to the cached items then.  An item that
has read such a record from the store in between gets it once more.

* `count_ingest`: after a write with nobody holding an item, a record is cached as often as it was
  cached before and written, or not at all.
* `nodup_iff_not_read_between`: an item has no record twice exactly if it has none of the written
  ones that it had before they were offered.
-/

namespace HistoryCache

/-- Whether some records start after another. -/
def StartsAfter (rs : List Record) (r : Record) : Prop := rs ≠ [] ∧ ∀ x ∈ rs, r.time < x.time

/-- What is left of some records, if some are left: all, or those after a second. -/
def LeftOver (rs rs' : List Record) : Prop :=
  rs' = rs ∨ rs' ≠ [] ∧ ∃ sec, rs' = rs.filter fun r => decide (sec < r.sec)

section

variable {rs rs' : List Record} {r w : Record}

theorem StartsAfter.count_eq_zero (h : StartsAfter rs r) : rs.count r = 0 :=
  List.count_eq_zero.2 fun hr => Timestamp.lt_irrefl _ (h.2 r hr)

theorem LeftOver.startsAfter (h : LeftOver rs rs') (hr : StartsAfter rs r) : StartsAfter rs' r := by
  rcases h with rfl | ⟨hne, sec, rfl⟩
  · exact hr
  · exact ⟨hne, fun x hx => hr.2 x (List.mem_filter.1 hx).1⟩

/-- What was let go of is from before what is left. -/
theorem LeftOver.count (h : LeftOver rs rs') (r : Record) :
    rs'.count r = rs.count r ∨ StartsAfter rs' r := by
  rcases h with rfl | ⟨hne, sec, rfl⟩
  · exact Or.inl rfl
  · by_cases hlt : sec < r.sec
    · exact Or.inl (List.count_filter (decide_eq_true hlt))
    · refine Or.inr ⟨hne, fun x hx => Or.inl ?_⟩
      have hx := of_decide_eq_true (List.mem_filter.1 hx).2
      exact Int.lt_of_le_of_lt (Int.not_lt.1 hlt) hx

end

/-- How often records are there after others were written to an item: once more for each time that
they were written, or not at all.  What is from before the others stays away. -/
structure Counts (id : ItemId) (writes : List ItemRecord) (rs rs' : List Record) : Prop where
  count : ∀ r, rs'.count r = rs.count r + writes.count ⟨id, r⟩ ∨
    rs'.count r = 0 ∧ (⟨id, r⟩ ∈ writes ∨ StartsAfter rs' r)
  startsAfter : ∀ r, StartsAfter rs r → StartsAfter rs' r

namespace Counts

variable {id : ItemId} {writes : List ItemRecord} {w : ItemRecord} {rs rs₁ rs' : List Record}

theorem count_other {r : Record} (h : (⟨id, r⟩ : ItemRecord) ≠ w) : [w].count ⟨id, r⟩ = 0 :=
  List.count_eq_zero_of_not_mem fun hmem => h (List.mem_singleton.1 hmem)

theorem refl : Counts id [] rs rs where
  count r := Or.inl (by rw [List.count_nil, Nat.add_zero])
  startsAfter _ h := h

theorem of_ne (h : id ≠ w.item) : Counts id [w] rs rs where
  count r := by
    left
    rw [count_other fun heq => h (congrArg ItemRecord.item heq), Nat.add_zero]
  startsAfter _ h := h

theorem leftOver (h : Counts id writes rs rs₁) (hleft : LeftOver rs₁ rs') :
    Counts id writes rs rs' where
  count r := by
    rcases hleft.count r with hcount | hafter
    · rw [hcount]
      exact (h.count r).imp (fun h => h) fun h => ⟨h.1, h.2.imp (fun h => h) hleft.startsAfter⟩
    · exact Or.inr ⟨hafter.count_eq_zero, Or.inr hafter⟩
  startsAfter r hr := hleft.startsAfter (h.startsAfter r hr)

theorem cons (h : Counts id [w] rs rs₁) (hw : w ∉ writes) (k : Counts id writes rs₁ rs') :
    Counts id (w :: writes) rs rs' where
  count r := by
    have hsum : ([w] ++ writes).count ⟨id, r⟩ = [w].count ⟨id, r⟩ + writes.count ⟨id, r⟩ :=
      List.count_append
    rw [← List.singleton_append, hsum]
    rcases h.count r with h1 | ⟨h1, hmem | hafter⟩
    · rcases k.count r with k1 | ⟨k1, hk⟩
      · exact Or.inl (by omega)
      · exact Or.inr ⟨k1, hk.imp (List.mem_cons_of_mem w) fun h => h⟩
    · have hr := List.mem_singleton.1 hmem
      rw [← hr] at hw
      have hzero := List.count_eq_zero_of_not_mem hw
      refine Or.inr ⟨?_, Or.inl (by rw [hr]; exact List.mem_cons_self)⟩
      rcases k.count r with k1 | ⟨k1, -⟩ <;> omega
    · have hafter' := k.startsAfter r hafter
      exact Or.inr ⟨hafter'.count_eq_zero, Or.inr hafter'⟩
  startsAfter r hr := k.startsAfter r (h.startsAfter r hr)

/-- No record is there twice exactly if none of those that were written was there before. -/
theorem nodup_iff (h : Counts id writes rs rs') (hrs : rs.Nodup) (hwrites : writes.Nodup) :
    rs'.Nodup ↔ ∀ r ∈ rs', ⟨id, r⟩ ∈ writes → r ∉ rs := by
  rw [List.nodup_iff_count_le_one]
  constructor
  · intro hle r hr hw hin
    have h1 := hle r
    have h2 := List.count_pos_iff.2 hr
    have h3 := List.count_pos_iff.2 hw
    have h4 := List.count_pos_iff.2 hin
    rcases h.count r with hcount | ⟨hcount, -⟩ <;> omega
  · intro hnone r
    have h1 := List.nodup_iff_count_le_one.1 hrs r
    have h2 := List.nodup_iff_count_le_one.1 hwrites ⟨id, r⟩
    rcases h.count r with hcount | ⟨hcount, -⟩
    · by_contra hlt
      have hr : r ∈ rs' := List.count_pos_iff.1 (by omega)
      have hw : (⟨id, r⟩ : ItemRecord) ∈ writes := List.count_pos_iff.1 (by omega)
      exact hnone r hr hw (List.count_pos_iff.1 (by omega))
    · omega

end Counts

namespace Item

variable {item item' item₁ taken : Item} {r w : Record} {now : Int}

/-- An item that nobody else holds and that is still there has taken the record. -/
theorem Offered.taken_of_kept (hlast : item.pins - 1 = 0) (hoffered : item.Offered w item')
    (hleaves : item'.Leaves now (some item₁)) : ∃ taken, item.Takes w taken ∧
      taken.state ≠ .removePending ∧
      LeftOver taken.history.records item₁.history.records := by
  have hpins := hoffered.later.2
  have hstate : item'.state ≠ .removePending := by
    intro hpending
    cases hleaves with
    | kept hstay =>
      rcases hstay with hstay | hactive
      · omega
      · rw [hpending] at hactive
        cases hactive
    | trimmed _ _ hclean =>
      rw [hpending] at hclean
      cases hclean
  have hleft : LeftOver item'.history.records item₁.history.records := by
    cases hleaves with
    | kept => exact Or.inl rfl
    | trimmed item₂ _ _ htrims =>
      rcases htrims with rfl | ⟨sec, g, rfl, -, -, -, hne, -, hrecords⟩
      · exact Or.inl rfl
      · exact Or.inr ⟨hne, sec, hrecords⟩
  cases hoffered with
  | passed hpending => exact absurd hpending hstate
  | taken item' _ _ htakes => exact ⟨item', htakes, hstate, hleft⟩
  | grown taken _ _ htakes =>
    obtain ⟨state, heq, hpending⟩ := taken.markClean_eq
    rw [heq] at hstate hleft
    exact ⟨taken, htakes, fun h => hstate (hpending h), hleft⟩
  | lost => exact absurd rfl hstate

/-- A record that is below the history takes the place of its second. -/
theorem Takes.leftOver_or_placed (hin : InOrder item.history.records) (h : item.Takes w taken)
    (hstate : taken.state ≠ .removePending) :
    taken.history.records = Cache.placed w item.history.records ∧
        (∀ r, StartsAfter item.history.records r → r.time < w.time) ∨
      (item.history.records = [] ∨ StartsAfter item.history.records w) ∧
        LeftOver item.history.records taken.history.records := by
  cases h with
  | placed g _ hrecords hnotBelow _ =>
    refine Or.inl ⟨hrecords, fun r hafter => ?_⟩
    obtain ⟨hne, hr⟩ := hafter
    obtain ⟨oldest, rest, hold⟩ := List.exists_cons_of_ne_nil hne
    have h1 := hr oldest (by rw [hold]; exact List.mem_cons_self)
    have h2 := hnotBelow oldest (by rw [hold]; rfl)
    rw [Timestamp.lt_iff_not_le] at h1 ⊢
    exact fun h3 => h1 (Timestamp.le_trans h2 h3)
  | ignored _ hempty => exact Or.inr ⟨Or.inl hempty, Or.inl rfl⟩
  | dropped g oldest _ holdest hbelow hrecords =>
    obtain ⟨rest, hold⟩ := List.head?_eq_some_iff.1 holdest
    have hne : g.records ≠ [] := by
      intro hnil
      exact hstate (if_pos hnil)
    refine Or.inr ⟨Or.inr ⟨by rw [hold]; simp, fun x hx => ?_⟩, Or.inr ⟨hne, w.sec, ?_⟩⟩
    · rw [Timestamp.lt_iff_not_le]
      intro hle
      exact hbelow (Timestamp.le_trans (hin.head_le holdest x hx) hle)
    · rw [← hin.dropWhile_sec]
      exact hrecords

/-- **A record that an item takes** is counted once more. -/
theorem Takes.counts (hin : InOrder item.history.records) (h : item.Takes w taken)
    (hstate : taken.state ≠ .removePending) (id : ItemId) :
    Counts id [⟨id, w⟩] item.history.records taken.history.records := by
  rcases h.leftOver_or_placed hin hstate with ⟨hrecords, hlater⟩ | ⟨hbelow, hleft⟩
  · rw [hrecords]
    refine ⟨fun r => Or.inl ?_, fun r hr => ?_⟩
    · rw [(Cache.perm_placed w _).count_eq]
      by_cases hrw : r = w
      · rw [hrw, List.count_cons_self, List.count_singleton_self]
      · rw [List.count_cons_of_ne (Ne.symm hrw),
          Counts.count_other fun heq => hrw (congrArg ItemRecord.record heq), Nat.add_zero]
    · refine ⟨List.ne_nil_of_mem (Cache.mem_placed.2 (Or.inr rfl)), fun x hx => ?_⟩
      rcases Cache.mem_placed.1 hx with hx | rfl
      · exact hr.2 x hx
      · exact hlater r hr
  · refine Counts.leftOver ⟨fun r => ?_, fun r hr => hr⟩ hleft
    by_cases hrw : r = w
    · subst hrw
      refine Or.inr ⟨?_, Or.inl (List.mem_singleton.2 rfl)⟩
      rcases hbelow with hempty | hbelow
      · rw [hempty, List.count_nil]
      · exact hbelow.count_eq_zero
    · left
      rw [Counts.count_other fun heq => hrw (congrArg ItemRecord.record heq), Nat.add_zero]

end Item

namespace Cache

variable {c : Cache} {id : ItemId} {item' : Item} {now : Int}

theorem counts_ingestOne {w : ItemRecord} (hsorted : c.Sound fun _ _ _ => True)
    (hrest : c.pinsOf id = 0) (expireBefore : Int)
    (hid : (c.ingestOne now expireBefore w).items[id]? = some item') :
    ∃ item, c.items[id]? = some item ∧
      Counts id [w] item.history.records item'.history.records := by
  by_cases hw : id = w.item
  · subst hw
    rcases ingestOne_spec now expireBefore (fun item hid => hsorted.sorted w.item item hid) with
      ⟨hnone, hitems⟩ | ⟨item, offered, x, hitem, hoffered, hleaves, hup⟩
    · rw [hitems, hnone] at hid
      cases hid
    · obtain rfl := hup.1.symm.trans hid
      rw [Holds.pinsOf_some hitem] at hrest
      have hlast : ({ item with pins := item.pins + 1 } : Item).pins - 1 = 0 := hrest
      obtain ⟨taken, htakes, hstate, hleft⟩ := hoffered.taken_of_kept hlast hleaves
      have hin : ({ item with pins := item.pins + 1 } : Item).history.Sorted :=
        (hsorted _ item hitem).sorted
      exact ⟨item, hitem, (htakes.counts hin.inOrder hstate w.item).leftOver hleft⟩
  · refine ⟨item', ?_, .of_ne hw⟩
    rcases ingestOne_spec now expireBefore (fun item hid => hsorted.sorted w.item item hid) with
      ⟨-, hitems⟩ | ⟨_, _, _, -, -, -, hup⟩
    · rw [← hitems]
      exact hid
    · rcases hup.2 id hw with heq | ⟨hnone, -⟩
      · rw [← heq]
        exact hid
      · rw [hnone] at hid
        cases hid

/-- **Written records** are cached as often as before and once more each, or not at all. -/
theorem counts_ingest (hsorted : c.Sound fun _ _ _ => True) (hrest : ∀ id, c.pinsOf id = 0)
    {writes : List ItemRecord} (hwrites : writes.Nodup)
    (hid : (c.ingest now writes).items[id]? = some item') :
    ∃ item, c.items[id]? = some item ∧
      Counts id writes item.history.records item'.history.records := by
  rw [Cache.ingest] at hid
  generalize c.expireBefore now = expireBefore at hid
  induction writes generalizing c with
  | nil => exact ⟨item', hid, .refl⟩
  | cons w writes ih =>
    have hrest' : ∀ id, (c.ingestOne now expireBefore w).pinsOf id = 0 := fun id => by
      rw [(Holds.ingestOne expireBefore fun item hid => hsorted.sorted w.item item hid).pins, hrest,
        if_neg (by simp)]
    obtain ⟨hw, hwrites⟩ := List.nodup_cons.1 hwrites
    obtain ⟨item₁, hid₁, hcounts'⟩ := ih (hsorted.ingestOne_sorted expireBefore w) hrest' hwrites hid
    obtain ⟨item, hitem, hcounts⟩ := counts_ingestOne hsorted (hrest id) expireBefore hid₁
    exact ⟨item, hitem, hcounts.cons hw hcounts'⟩

end Cache

theorem Store.AllFresh.nodup {s : Store} {writes : List ItemRecord} (h : s.AllFresh writes) :
    writes.Nodup :=
  h.distinct.imp fun hne heq => by
    subst heq
    exact hne ⟨rfl, rfl, rfl⟩

/-- **A write in two steps**: the store takes the records, others do what they like, and the cached
items are offered the records then.  After that an item has no record twice exactly if it has none of
those that it had before they were offered. -/
theorem nodup_iff_not_read_between {config : Config} {now : Int} {s₀ s t : Service}
    {store store' : Store} {depth depth' : Nat} {writes : List ItemRecord} {id : ItemId} {item' : Item}
    (hnew : Service.new config now = .ok s₀) (hstore : store.Regular)
    (hs : Meanwhile Plain Rules.fresh.Permits depth { s₀ with store := store } s)
    (hw : s.store.AllFresh writes) (happend : s.store.append writes = (.ok (), store'))
    (ht : Meanwhile Plain Rules.fresh.Permits depth' { s with store := store' } t)
    (hid : (t.cache.ingest t.now writes).items[id]? = some item') :
    ∃ item, t.cache.items[id]? = some item ∧
      (item'.history.records.Nodup ↔
        ∀ r ∈ item'.history.records, ⟨id, r⟩ ∈ writes → r ∉ item.history.records) := by
  obtain ⟨hfaithful, hrest⟩ := Service.faithful_of_meanwhile hnew hstore hs
  -- the first step is a write on a handle that is off
  have hadd : (s.add false writes).2 = { s with store := store' } := by
    rw [Service.add, happend]
    rfl
  obtain ⟨hfaithful', hadvances⟩ := hfaithful.add news_none false hw
    fun _ _ h => h.elim
  rw [hadd] at hfaithful' hadvances
  obtain ⟨ht, hadvances'⟩ := follows_faithful.preserved.meanwhile depth' _ t ht hfaithful'
  have hrest' : ∀ id, t.cache.pinsOf id = 0 := fun id =>
    (hadvances'.pinsOf id).trans (hrest id)
  obtain ⟨item, hitem, hcounts⟩ :=
    Cache.counts_ingest (ht.sound.mono fun _ => trivial) hrest' hw.nodup hid
  exact ⟨item, hitem, hcounts.nodup_iff (ht.sound _ item hitem).contents.1.nodup hw.nodup⟩

/-- A number that is written to item 7. -/
def oneNumber : ItemRecord := ⟨7, ⟨⟨995, 0⟩, .uint 1⟩⟩

/-- The new service with its handle turned on and a number in the store that nobody was offered. -/
def halfWritten : Service :=
  { newService.enable 0 with store := ((newService.enable 0).store.append [oneNumber]).2 }

/-- That service after a request for the last minute. -/
def readBetween : Service := (halfWritten.step (.call 0 (.get ⟨7, .uint, 60, 0, ⟨1000, 0⟩⟩))).2

theorem not_nodup_read_between : ∃ item' : Item,
    (readBetween.cache.ingest readBetween.now [oneNumber]).items[7]? = some item' ∧
      ¬ item'.history.records.Nodup := by
  have hrecords : ((readBetween.cache.ingest readBetween.now [oneNumber]).items[7]?).map
      (fun item => item.history.records) = some [oneNumber.record, oneNumber.record] := by cbv
  have hbefore : (readBetween.cache.items[7]?).map (fun item => item.history.records) =
      some [oneNumber.record] := by cbv
  obtain ⟨item', hid, htwice⟩ := Option.map_eq_some_iff.1 hrecords
  have hs : Meanwhile Plain Rules.fresh.Permits 1 { newService with store := {} }
      (newService.enable 0) :=
    .single (@does_step Rules.fresh.Permits newService (.enable 0) trivial)
  have hw : (newService.enable 0).store.AllFresh [oneNumber] :=
    .singleton (Store.fresh_of_getElem? (by cbv)) ⟨by decide, by decide, by decide⟩
  have ht : Meanwhile Plain Rules.fresh.Permits 1 halfWritten readBetween :=
    .single (does_step fun _ _ _ h => by cases h)
  obtain ⟨item, hitem, hiff⟩ := nodup_iff_not_read_between new_newService
    (Store.regular_empty fun _ _ => .refl _) hs hw rfl ht hid
  rw [hitem, Option.map_some, Option.some.injEq] at hbefore
  refine ⟨item', hid, fun hnodup => hiff.1 hnodup oneNumber.record ?_ ?_ ?_⟩
  · rw [htwice]
    exact List.mem_cons_self
  · exact List.mem_cons_self
  · rw [hbefore]
    exact List.mem_cons_self

end HistoryCache
