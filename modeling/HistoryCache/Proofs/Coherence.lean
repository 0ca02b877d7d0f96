import HistoryCache.Proofs.Faithful

/-!
# Items that vouch truly

An item vouches for seconds: for those from its oldest record on, for those that it covers, and with
`cachedAll` for all of them.  `Item.Coherent` says that no record of the store is missing from the
seconds that an item vouches for.  An item that nobody holds and that covers nothing is `Settled`: it
has all there is.

* `Takes.coherent_iff`: a written record keeps an item coherent unless it is `Stray`.
* `Leaves.vouched`: an item that was left is coherent if it was before.
-/

namespace HistoryCache

/-- A request that makes sense: its window does not lie ahead of it, nor it beyond the horizon.  The
seconds of its window fit in 64 bits, and its count is not the largest: no count follows that. -/
structure Request.Valid (q : Request) : Prop where
  seconds : 0 ≤ q.seconds
  before : q.upTo.sec < Timestamp.horizon
  bounds : Fits64 (q.upTo.sec - q.seconds)
  countable : q.count < maxCount

theorem Request.Valid.inBounds {q : Request} (hq : q.Valid) : q.InBounds := by
  have hseconds := hq.seconds
  have hbefore := hq.before
  have hbounds := hq.bounds
  rw [Timestamp.horizon] at hbefore
  rw [Fits64] at hbounds
  exact ⟨hq.bounds, by rw [Fits64]; omega⟩

namespace Item

/-- Whatever the item vouches for is cached; `stored` are the records that the store has of the
item's kind. -/
structure Coherent (stored : List Record) (item : Item) : Prop where
  floor : ∀ x ∈ item.history.records, ∀ r ∈ stored, x.sec ≤ r.sec → r ∈ item.history.records
  covered : ∀ sec, item.coveredFrom = some sec → ∀ r ∈ stored, sec ≤ r.sec →
    r ∈ item.history.records
  whole : item.cachedAll = true → ∀ r ∈ stored, r ∈ item.history.records

/-- An item that covers no seconds has all there is. -/
def Settled (stored : List Record) (item : Item) : Prop :=
  item.coveredFrom = none → ∀ r ∈ stored, r ∈ item.history.records

/-- An item is to be removed by its holders, or it is coherent; if nobody holds it, it is settled. -/
def Vouched (stored : List Record) (item : Item) : Prop :=
  item.state = .removePending ∧ 0 < item.pins ∨
    item.Coherent stored ∧ (item.pins = 0 → item.Settled stored)

/-- What is to be known of an item that is about to be left. -/
def Leavable (stored : List Record) (item : Item) : Prop :=
  item.state = .removePending ∨
    item.Coherent stored ∧ (item.pins - 1 = 0 → item.Settled stored)

/-- A record that an item must not be given: the item vouches for nothing yet but would for seconds of
which it does not have all. -/
def Stray (stored : List Record) (w : Record) (item : Item) : Prop :=
  item.coveredFrom = none ∧ item.cachedAll = false ∧ ∃ r ∈ stored, r ∉ item.history.records ∧
    (w.sec < r.sec ∨ w.sec = r.sec ∧ item.history.records = [])

variable {stored stored' : List Record} {item item' : Item} {w : Record} {now : Int}

namespace Coherent

theorem congr (h : item.Coherent stored) (hhistory : item'.history = item.history)
    (hcovered : item'.coveredFrom = item.coveredFrom) (hall : item'.cachedAll = item.cachedAll) :
    item'.Coherent stored where
  floor := by rw [hhistory]; exact h.floor
  covered := by rw [hhistory, hcovered]; exact h.covered
  whole := by rw [hhistory, hall]; exact h.whole

theorem empty (stored : List Record) (kind : Kind) (now : Int) :
    (Item.empty kind now).Coherent stored where
  floor _ hx := absurd hx List.not_mem_nil
  covered _ h := by cases h
  whole h := by cases h

theorem trims (h : item.Coherent stored) (htrims : item.Trims now item') :
    item'.Coherent stored := by
  rcases htrims with rfl | ⟨sec, g, rfl, -, -, -, -, ⟨last, hlast, hsec⟩, hrecords⟩
  · exact h
  · have hmem : ∀ r, r ∈ g.records ↔ r ∈ item.history.records ∧ sec < r.sec := fun r => by
      rw [hrecords, List.mem_filter, decide_eq_true_iff]
    have hafter : ∀ r ∈ stored, sec < r.sec → r ∈ g.records := fun r hr hlt =>
      (hmem r).2 ⟨h.floor last hlast r hr (by omega), hlt⟩
    refine ⟨fun x hx r hr hle => ?_, fun s hs r hr hle => ?_, fun hall => by cases hall⟩
    · have := ((hmem x).1 hx).2
      exact hafter r hr (by omega)
    · cases hs
      exact hafter r hr (by omega)

end Coherent

/-- **An item that was left** is as coherent as before. -/
theorem Leaves.vouched {x : Option Item} (h : item.Leavable stored)
    (hleaves : item.Leaves now x) : ∀ item', x = some item' → item'.Vouched stored := by
  intro item' hx
  cases hleaves with
  | kept hstay =>
    cases hx
    rcases h with hstate | ⟨hcoherent, hsettled⟩
    · refine Or.inl ⟨hstate, hstay.resolve_right fun hactive => ?_⟩
      rw [hstate] at hactive
      cases hactive
    · exact Or.inr ⟨hcoherent.congr rfl rfl rfl, hsettled⟩
  | removed => cases hx
  | trimmed item₁ hlast hstate htrims =>
    cases hx
    rcases h with hpending | ⟨hcoherent, hsettled⟩
    · rw [hstate] at hpending
      cases hpending
    · have h' : ({ item with pins := item.pins - 1 } : Item).Coherent stored :=
        hcoherent.congr rfl rfl rfl
      refine Or.inr ⟨(h'.trims htrims).congr rfl rfl rfl, fun _ => ?_⟩
      rcases htrims with rfl | ⟨sec, g, rfl, -⟩
      · exact hsettled hlast
      · intro hnone
        cases hnone

/-! ## Written records -/

theorem Settled.not_stray (h : item.Settled stored) : ¬ item.Stray stored w := by
  rintro ⟨hnone, -, r, hr, hnot, -⟩
  exact hnot (h hnone r hr)

/-- A record of a second that is not before the oldest record of an item, or of a time for which an
empty item vouches or before which there is nothing. -/
theorem Coherent.placed (h : item.Coherent stored)
    (hstored : ∀ r, r ∈ stored' ↔ r ∈ stored ∨ r = w) (hstray : ¬ item.Stray stored w)
    {g : History} (hrecords : g.records = Cache.placed w item.history.records)
    (hnotBelow : ∀ oldest, item.history.records.head? = some oldest → oldest.time ≤ w.time)
    (hvouches : item.history.records = [] → item.cachedAll = true ∨
      ∀ s, item.coveredFrom = some s → s ≤ w.sec) :
    ({ item with history := g } : Item).Coherent stored' := by
  have hmem : ∀ r, r ∈ g.records ↔ r ∈ item.history.records ∨ r = w := fun r => by
    rw [hrecords, Cache.mem_placed]
  have hkeep : ∀ {P : Record → Prop}, (∀ r ∈ stored, P r → r ∈ item.history.records) →
      ∀ r ∈ stored', P r → r ∈ g.records := by
    intro P hP r hr hPr
    exact (hmem r).2 (((hstored r).1 hr).imp (fun hr => hP r hr hPr) fun hr => hr)
  have hafter : ∀ r ∈ stored, w.sec ≤ r.sec → r ∈ item.history.records := by
    intro r hr hle
    cases hold : item.history.records with
    | cons oldest rest =>
      have holdest := hnotBelow oldest (by rw [hold]; rfl)
      rw [← hold]
      refine h.floor oldest (by rw [hold]; exact List.mem_cons_self) r hr ?_
      exact Int.le_trans (Record.sec_le_of_le holdest) hle
    | nil =>
      rw [← hold]
      by_contra hnot
      cases hall : item.cachedAll with
      | true => exact hnot (h.whole hall r hr)
      | false =>
        cases hcovered : item.coveredFrom with
        | some s =>
          rcases hvouches hold with hwhole | hcovers
          · rw [hall] at hwhole
            cases hwhole
          · exact hnot (h.covered s hcovered r hr (Int.le_trans (hcovers s hcovered) hle))
        | none =>
          refine hstray ⟨hcovered, hall, r, hr, hnot, ?_⟩
          exact (Int.lt_or_eq_of_le hle).imp (fun h => h) fun h => ⟨h, hold⟩
  refine ⟨fun x hx r hr hle => ?_, fun s hs => hkeep (h.covered s hs), fun hall => ?_⟩
  · rcases (hmem x).1 hx with hx | rfl
    · exact hkeep (h.floor x hx) r hr hle
    · exact hkeep hafter r hr hle
  · exact fun r hr => hkeep (P := fun _ => True) (fun r hr _ => h.whole hall r hr) r hr trivial

/-- A history that loses the second of a record vouches for what comes after it. -/
theorem Coherent.dropped (h : item.Coherent stored) (hin : InOrder item.history.records)
    (hstored : ∀ r, r ∈ stored' ↔ r ∈ stored ∨ r = w) (hstray : ¬ item.Stray stored w)
    (hrecords : item'.history.records =
      item.history.records.dropWhile fun x => decide (x.sec ≤ w.sec))
    (hcovered : item'.coveredFrom =
      if item.coveredFrom.all fun s => decide (s ≤ w.sec) then some (w.sec + 1)
      else item.coveredFrom)
    (hnotAll : item'.cachedAll = false) : item'.Coherent stored' := by
  have hmem : ∀ r, r ∈ item'.history.records ↔ r ∈ item.history.records ∧ w.sec < r.sec := by
    intro r
    rw [hrecords, hin.dropWhile_sec, List.mem_filter, decide_eq_true_iff]
  have hafter : ∀ {P : Record → Prop}, (∀ r ∈ stored, P r → r ∈ item.history.records) →
      (∀ r, P r → w.sec < r.sec) → ∀ r ∈ stored', P r → r ∈ item'.history.records := by
    intro P hP hlt r hr hPr
    rcases (hstored r).1 hr with hr | rfl
    · exact (hmem r).2 ⟨hP r hr hPr, hlt r hPr⟩
    · exact absurd (hlt r hPr) (Int.lt_irrefl _)
  refine ⟨fun x hx => ?_, fun s hs => ?_, fun hall => ?_⟩
  · obtain ⟨hx, hlt⟩ := (hmem x).1 hx
    exact hafter (h.floor x hx) fun r hr => by omega
  · rw [hcovered] at hs
    split at hs
    · next hcovers =>
      cases hs
      refine hafter (fun r hr hle => ?_) fun r hr => by omega
      cases hcovered : item.coveredFrom with
      | some s =>
        rw [hcovered, Option.all_some, decide_eq_true_iff] at hcovers
        exact h.covered s hcovered r hr (by omega)
      | none =>
        by_contra hnot
        cases hall : item.cachedAll with
        | true => exact hnot (h.whole hall r hr)
        | false => exact hstray ⟨hcovered, hall, r, hr, hnot, Or.inl (by omega)⟩
    · next hcovers =>
      rw [hs, Option.all_some, decide_eq_true_iff] at hcovers
      exact hafter (h.covered s hs) fun r hr => by omega
  · rw [hnotAll] at hall
    cases hall

/-- An item that takes a stray record misses one that it vouches for. -/
theorem Stray.not_coherent (hstray : item.Stray stored w) (hin : InOrder item.history.records)
    (hnew : w ∉ stored) (hstored : ∀ r, r ∈ stored' ↔ r ∈ stored ∨ r = w)
    (htakes : item.Takes w item') : ¬ item'.Coherent stored' := by
  intro h'
  obtain ⟨hnone, -, r, hr, hnot, hsec⟩ := hstray
  have hr' := (hstored r).2 (Or.inl hr)
  cases htakes with
  | placed g _ hrecords _ _ =>
    have hmem : ∀ r, r ∈ g.records ↔ r ∈ item.history.records ∨ r = w := by
      intro r
      rw [hrecords, Cache.mem_placed]
    rcases (hmem r).1 (h'.floor w ((hmem w).2 (Or.inr rfl)) r hr' (by omega)) with hin | rfl
    · exact hnot hin
    · exact hnew hr
  | ignored s _ _ hcovered _ =>
    rw [hcovered] at hnone
    cases hnone
  | dropped g oldest _ holdest _ hrecords =>
    rcases hsec with hsec | ⟨-, hempty⟩
    · have hin' : r ∈ g.records := by
        refine h'.covered (w.sec + 1) ?_ r hr' hsec
        rw [hnone]
        rfl
      rw [hrecords, hin.dropWhile_sec, List.mem_filter] at hin'
      exact hnot hin'.1
    · rw [hempty] at holdest
      cases holdest

/-- **A written record** keeps an item coherent exactly if it is not stray. -/
theorem Takes.coherent_iff (h : item.Coherent stored) (hin : InOrder item.history.records)
    (hnew : w ∉ stored) (hstored : ∀ r, r ∈ stored' ↔ r ∈ stored ∨ r = w)
    (htakes : item.Takes w item') : item'.Coherent stored' ↔ ¬ item.Stray stored w := by
  refine ⟨fun h' hstray => hstray.not_coherent hin hnew hstored htakes h', fun hstray => ?_⟩
  cases htakes with
  | placed g _ hrecords hnotBelow hvouches =>
    exact h.placed hstored hstray hrecords hnotBelow hvouches
  | dropped g oldest _ _ _ hrecords => exact h.dropped hin hstored hstray hrecords rfl rfl
  | ignored s hempty hnotAll hcovered hbefore =>
    refine ⟨fun x hx => ?_, fun s' hs' r hr hle => ?_, fun hall => ?_⟩
    · change x ∈ item.history.records at hx
      rw [hempty] at hx
      exact absurd hx List.not_mem_nil
    · rcases (hstored r).1 hr with hr | rfl
      · exact h.covered s' hs' r hr hle
      · change item.coveredFrom = some s' at hs'
        rw [hcovered] at hs'
        cases hs'
        omega
    · change item.cachedAll = true at hall
      rw [hnotAll] at hall
      cases hall

theorem Takes.settled (h : item.Settled stored) (hstored : ∀ r, r ∈ stored' ↔ r ∈ stored ∨ r = w)
    (htakes : item.Takes w item') : item'.Settled stored' := by
  cases htakes with
  | placed g _ hrecords _ _ =>
    intro hnone r hr
    show r ∈ g.records
    rw [hrecords, Cache.mem_placed]
    exact ((hstored r).1 hr).imp (h hnone r) fun hr => hr
  | ignored s _ _ hcovered _ =>
    intro hnone
    change item.coveredFrom = none at hnone
    rw [hcovered] at hnone
    cases hnone
  | dropped g _ _ _ _ _ =>
    intro hnone
    change (if item.coveredFrom.all fun s => decide (s ≤ w.sec) then some (w.sec + 1)
      else item.coveredFrom) = none at hnone
    split at hnone
    · cases hnone
    · next hcovers =>
      rw [hnone] at hcovers
      exact absurd rfl hcovers

theorem Vouched.pinned (h : item.Vouched stored) :
    ({ item with pins := item.pins + 1 } : Item).Leavable stored :=
  h.imp (fun h => h.1) fun h => ⟨h.1.congr rfl rfl rfl, h.2⟩

/-- An item that is offered a record that is not stray stays coherent, or is to be removed. -/
theorem Offered.leavable (h : item.Leavable stored) (hin : InOrder item.history.records)
    (hstored : item.kind = w.value.kind → w ∉ stored ∧ ∀ r, r ∈ stored' ↔ r ∈ stored ∨ r = w)
    (hstray : item.state ≠ .removePending → item.kind = w.value.kind → ¬ item.Stray stored w)
    (hoffered : item.Offered w item') : item'.Leavable stored' := by
  have htaken : ∀ {item' : Item}, item.state ≠ .removePending → item.kind = w.value.kind →
      item.Takes w item' → item'.Coherent stored' ∧
        (item'.pins - 1 = 0 → item'.Settled stored') := by
    intro item' hstate hkind htakes
    obtain ⟨hnew, hstored⟩ := hstored hkind
    obtain ⟨hcoherent, hsettled⟩ := h.resolve_left hstate
    refine ⟨(htakes.coherent_iff hcoherent hin hnew hstored).2 (hstray hstate hkind), fun hlast => ?_⟩
    rw [htakes.later.2.1] at hlast
    exact htakes.settled (hsettled hlast) hstored
  cases hoffered with
  | passed hstate => exact Or.inl hstate
  | taken item' hstate hkind htakes => exact Or.inr (htaken hstate hkind htakes)
  | grown item' hstate hkind htakes =>
    obtain ⟨hcoherent, hsettled⟩ := htaken hstate hkind htakes
    rw [markClean]
    split
    · exact Or.inr ⟨hcoherent.congr rfl rfl rfl, hsettled⟩
    · exact Or.inr ⟨hcoherent, hsettled⟩
  | lost => exact Or.inl rfl

end Item

end HistoryCache
