import HistoryCache.Proofs.LowMemory
import HistoryCache.Proofs.Tallies

/-!
# The gauges

The gauge of the mode always shows the mode.  The gauge of the items is set when an item comes or goes,
and it shows what is in the map at that time.  A write or a fill has its item out of the map, and if
others are evicted for it meanwhile, the gauge misses that item from then on: nothing sets the gauge when
the item is put back, until the next item comes or goes.

* `Cache.Work`, `Cache.Run`: what is done to a cache, piece by piece.
* `Cache.Work.shows`: what one piece does to the gauges.
* `Cache.Run.gauge_add_behind`: what the gauge of the items misses after a run.
* `Traffic.gauges_of_reachable`: this is all that it ever misses, and the other gauge misses nothing.
-/

namespace HistoryCache

theorem Item.state_updateRange (item : Item) (range now : Int) :
    (item.updateRange range now).state = item.state := by
  rw [updateRange]
  by_cases hlonger : item.activeRange < max item.dailyRange (max range minRange) ∨
      syncPeriod < hoursBetween item.syncHour (hourOf now)
  · rw [if_pos hlonger]
  · rw [if_neg hlonger]

/-- An answer decides nothing about what is to become of an item. -/
theorem Request.state_collect (q : Request) (now : Int) (item : Item) :
    (q.collect now item).2.state = item.state := by
  rw [collect]
  split
  · exact item.state_updateRange _ now
  · rw [Item.collectCount]
    simp only []
    split
    · rfl
    · exact item.state_updateRange _ now

namespace Cache

/-! ## Pieces of work -/

/-- What operations are made of, as far as the cache is concerned. -/
inductive Work where
  /-- A written record goes to its item. -/
  | write (now expireBefore : Int) (w : ItemRecord)
  | remove (id : ItemId)
  | reset
  | start (now : Int) (q : Request)
  | finishFill (now : Int) (q : Request) (fill : Fill) (result : Except StoreFailure Fetched)
  | finishBypass (now : Int) (q : Request) (held : Bool)
      (result : Except StoreFailure (List Record))

namespace Work

def apply : Work → Cache → Cache
  | write now expireBefore w, c => ingestOne now expireBefore c w
  | remove id, c => c.requestRemoval id
  | reset, c => c.reset
  | start now q, c => (c.start now q).2
  | finishFill now q fill result, c => (c.finishFill now q fill result).2
  | finishBypass now q held result, c => c.finishBypass now q held result

/-- The item that is taken out of the map for a part of the work. -/
def out? : Work → Option ItemId
  | write _ _ w => some w.item
  | finishFill _ q _ _ => some q.item
  | remove _ | reset | start .. | finishBypass .. => none

end Work

/-- The number of items that are missed if one of them is not counted: one if it is cached. -/
def missed (c : Cache) (out : Option ItemId) : Nat :=
  if out.any fun id => decide (id ∈ c.ids) then 1 else 0

/-- A piece of work in a run. -/
structure Stage where
  before : Cache
  work : Work

def Stage.after (t : Stage) : Cache := t.work.apply t.before

/-- The last stage that changed which items are cached. -/
def lastChange? (stages : List Stage) : Option Stage :=
  stages.reverse.find? fun t => decide (t.after.ids ≠ t.before.ids)

/-- How many items the gauge shows too few after a run. -/
def behind (stages : List Stage) : Nat :=
  (lastChange? stages).elim 0 fun t => t.after.missed t.work.out?

/-- While the stage has its item out of the map, others go. -/
def Stage.Hides (t : Stage) : Prop :=
  ∃ id, t.work.out? = some id ∧ id ∈ t.after.ids ∧ ∃ other ∈ t.before.ids, other ∉ t.after.ids

/-- A run from a new cache.  Between its stages other metrics are set and things are logged. -/
inductive Run (config : Config) : List Stage → Cache → Prop
  | new : Run config [] (Cache.new config)
  | notes {stages : List Stage} {c d : Cache} (h : Run config stages c) (hnotes : c.Notes d) :
      Run config stages d
  | work {stages : List Stage} {c : Cache} (h : Run config stages c) (work : Work) :
      Run config (stages ++ [⟨c, work⟩]) (work.apply c)

/-! ## Leaving an item -/

section

variable {c c' c'' : Cache} {id : ItemId} {item : Item}

/-- When an item is left, it goes if that is pending and nothing is shown of it otherwise. -/
theorem unpin_cases (c : Cache) (now : Int) (id : ItemId) :
    Still c (c.unpin now id) ∨
      ∃ item c₀, c.items[id]? = some item ∧ item.state = .removePending ∧ Still c c₀ ∧
        c₀.items[id]? ≠ none ∧ c.unpin now id = (c₀.remove id).2 := by
  cases hid : c.items[id]? with
  | none =>
    rw [unpin, hid]
    exact Or.inl .refl
  | some item =>
    rw [unpin, hid]
    simp only []
    split
    · exact Or.inl (.checkIn hid _)
    · split
      · exact Or.inl (.checkIn hid _)
      · next hstate =>
        refine Or.inr ⟨item, _, rfl, hstate, .checkIn hid _, ?_, rfl⟩
        rw [getElem?_checkIn, if_pos rfl]
        exact Option.some_ne_none _
      · exact Or.inl (.putBack hid (.trim _ now _) _)

theorem Tallies.unpin (c : Cache) (now : Int) (id : ItemId) : Tallies c (c.unpin now id) := by
  obtain hstill | ⟨item, c₀, -, -, hstill, -, heq⟩ := unpin_cases c now id
  · exact hstill.tallies
  · rw [heq]
    exact hstill.tallies.trans (.remove c₀ id)

theorem Still.unpin (h : ∀ item, c.items[id]? = some item → item.state ≠ .removePending) (now : Int) :
    Still c (c.unpin now id) := by
  obtain hstill | ⟨item, -, hid, hstate, -⟩ := unpin_cases c now id
  · exact hstill
  · exact absurd hstate (h item hid)

end

/-! ## What is shown after work on an item -/

/-- Nothing changes of what is shown, or other items are cached than before and the gauge shows them
all but the one that was out. -/
structure Shows (out : Option ItemId) (c c' : Cache) : Prop where
  mode : c.ShowsMode → c'.ShowsMode
  /-- Work on an item admits none. -/
  ids : out ≠ none → c'.ids ⊆ c.ids
  items : c'.ids = c.ids ∧ c'.gauge = c.gauge ∨
    c'.ids ≠ c.ids ∧ c'.gauge + c'.missed out = c'.items.size

namespace Shows

variable {c c' c'' : Cache} {out : Option ItemId} {id : ItemId} {item : Item}

theorem of_still (h : Still c c') : Shows out c c' :=
  ⟨h.mode, fun _ => h.tallies.ids, Or.inl ⟨h.ids, h.gauge⟩⟩

theorem still (h : Shows out c c') (k : Still c' c'') : Shows out c c'' := by
  refine ⟨fun hc => k.mode (h.mode hc), fun hout => k.ids ▸ h.ids hout, ?_⟩
  rcases h.items with ⟨hids, hgauge⟩ | ⟨hids, hgauge⟩
  · exact Or.inl ⟨k.ids.trans hids, k.gauge.trans hgauge⟩
  · refine Or.inr ⟨by rw [k.ids]; exact hids, ?_⟩
    rw [missed, k.ids, k.gauge, k.size]
    exact hgauge

theorem after (h : Still c c') (k : Shows out c' c'') : Shows out c c'' := by
  refine ⟨fun hc => k.mode (h.mode hc), ?_, ?_⟩
  · rw [← h.ids]
    exact k.ids
  · rw [← h.ids, ← h.gauge]
    exact k.items

theorem of_tallies (h : Tallies c c') : Shows none c c' := by
  refine ⟨h.mode, fun _ => h.ids, h.items.imp_right fun ⟨hless, hgauge⟩ => ⟨fun hids => ?_, hgauge⟩⟩
  rw [← length_ids, hids, length_ids] at hless
  exact Nat.lt_irrefl _ hless

/-- **Work on an item** that is out of the map: the gauge misses it if others had to go. -/
theorem putBack (hid : c.items[id]? = some item) (h : Tallies (c.checkOut id) c') (item' : Item) :
    Shows (some id) c (c'.checkIn id item') := by
  refine ⟨h.mode, fun _ j hj => ?_, ?_⟩
  · rcases mem_ids_checkIn.1 hj with rfl | hj
    · exact mem_ids.2 ⟨item, hid⟩
    · exact (mem_ids_checkOut.1 (h.ids hj)).2
  rcases h.items with ⟨hids, hgauge⟩ | ⟨hless, hgauge⟩
  · exact Or.inl ⟨ids_putBack hid hids item', hgauge⟩
  · have hout : c'.items[id]? = none := by
      by_contra hsome
      obtain ⟨item₁, hid₁⟩ := Option.ne_none_iff_exists'.1 hsome
      exact (mem_ids_checkOut.1 (h.ids (mem_ids.2 ⟨item₁, hid₁⟩))).1 rfl
    have hsize := size_checkOut hid
    have hsize' := size_checkIn hout item'
    have hmissed : (c'.checkIn id item').missed (some id) = 1 :=
      if_pos (by simpa using mem_ids_checkIn.2 (Or.inl (Eq.refl id)))
    refine Or.inr ⟨fun hids => ?_, ?_⟩
    · rw [← length_ids, hids, length_ids] at hsize'
      omega
    · rw [hmissed, hsize']
      exact congrArg (· + 1) hgauge

/-- An item that goes when it is left is not missed. -/
theorem unpin (h : Shows (some id) c c') (hid : id ∈ c.ids) (now : Int) :
    Shows (some id) c (c'.unpin now id) := by
  obtain hstill | ⟨item, c₀, hid', -, hstill, hid₀, heq⟩ := unpin_cases c' now id
  · exact h.still hstill
  · obtain ⟨item₀, hid₀⟩ := Option.ne_none_iff_exists'.1 hid₀
    obtain ⟨hmode, -, hgauge⟩ := Tallies.of_remove hid₀
    have hgone : id ∉ (c₀.remove id).2.ids := fun hmem => (mem_ids_remove.1 hmem).1 rfl
    have hmissed : (c₀.remove id).2.missed (some id) = 0 := if_neg (by simpa using hgone)
    rw [heq]
    refine ⟨fun hc => hmode (hstill.mode (h.mode hc)), fun hout j hj => ?_, Or.inr ⟨fun hids => ?_, ?_⟩⟩
    · have hj' := (mem_ids_remove.1 hj).2
      rw [hstill.ids] at hj'
      exact h.ids hout hj'
    · rw [hids] at hgone
      exact hgone hid
    · rw [hmissed]
      exact hgauge

end Shows

/-! ## The pieces -/

theorem shows_ensure (c : Cache) (now : Int) (q : Request) : Shows none c (c.ensure now q).2 := by
  have hcharge := Tallies.charge c now q.item Item.entryBytes
  rw [ensure]
  split
  · exact .of_still .refl
  split
  · exact .of_still .refl
  next hout _ =>
  have hnot : q.item ∉ c.ids := fun hmem => by
    obtain ⟨item, hid⟩ := mem_ids.1 hmem
    rw [Std.ExtTreeMap.contains_eq_isSome_getElem?, hid] at hout
    exact hout rfl
  rw [create]
  generalize c.charge now q.item Item.entryBytes = charged at hcharge
  obtain ⟨e | ⟨⟨⟩⟩, c₁⟩ := charged
  · exact (Shows.of_tallies hcharge).still (.log c₁ _)
  · -- the item was not cached before, and it is now
    refine ⟨hcharge.mode, fun hout => absurd rfl hout, Or.inr ⟨fun hids => ?_, rfl⟩⟩
    have hin : q.item ∈ (c₁.checkIn q.item (Item.empty q.kind now)).ids := mem_ids_checkIn.2 (Or.inl rfl)
    exact hnot (hids ▸ hin)

theorem still_answer {c : Cache} {q : Request} {item : Item} (hid : c.items[q.item]? = some item)
    (now : Int) (read : Nat) (hstate : item.state ≠ .removePending) :
    Still c (c.answer now q read item).2 := by
  rw [answer]
  simp only []
  refine ((Still.checkIn hid _).trans (.account _ now _ _ _)).trans (.unpin (fun item' hid' => ?_) now)
  rw [getElem?_account, if_pos rfl, getElem?_checkIn, if_pos rfl] at hid'
  cases hid'
  show (q.collect now item).2.state ≠ .removePending
  rw [Request.state_collect]
  exact hstate

theorem servable_ok {c : Cache} {q : Request} {item : Item} (h : c.servable q = .ok item) :
    c.items[q.item]? = some item ∧ item.state ≠ .removePending := by
  cases hid : c.items[q.item]? with
  | none =>
    rw [servable, hid] at h
    cases h
  | some item' =>
    obtain ⟨-, e, herror⟩ | ⟨hstate, -, hok⟩ := servable_spec hid
    · rw [herror] at h
      cases h
    · rw [hok] at h
      cases h
      exact ⟨rfl, hstate⟩

theorem shows_start (c : Cache) (now : Int) (q : Request) : Shows none c (c.start now q).2 := by
  have hgreet : Still c (c.greet now) := by
    rw [greet]
    split
    · exact .warnLowMemory c now
    · exact .refl
  have hensure := (shows_ensure (c.greet now) now q).after hgreet
  rw [start, show (if c.mode = .lowMemory then c.warnLowMemory now else c) = c.greet now from rfl]
  simp only []
  generalize (c.greet now).ensure now q = ensured at hensure
  obtain ⟨_ | _, c₁⟩ := ensured
  · exact hensure
  have hpinned := hensure.still (.pin c₁ q.item)
  simp only []
  generalize c₁.pin q.item = c₂ at hpinned
  generalize hservable : c₂.servable q = served
  cases served with
  | error e => exact hpinned.still (.giveUp c₂ q _)
  | ok item =>
    simp only []
    split
    · exact hpinned
    · obtain ⟨hid, hstate⟩ := servable_ok hservable
      exact hpinned.still (still_answer hid now 0 hstate)

theorem shows_extend (c : Cache) (now : Int) (q : Request) (fill : Fill) (fetched : Fetched) :
    Shows (some q.item) c (c.extend now q fill fetched).2 := by
  rw [extend]
  cases hid : c.items[q.item]? with
  | none => exact .of_still .refl
  | some item =>
    simp only []
    split
    · exact .of_still .refl
    · have hfill := Tallies.fill (c.checkOut q.item) now q.item
        (belowHistory item.history fetched.records) item.history
      rw [prepend]
      simp only []
      generalize Cache.fill now q.item (belowHistory item.history fetched.records) item.history
        (c.checkOut q.item) = filled at hfill
      obtain ⟨e | ⟨⟨⟩⟩, h, c₁⟩ := filled <;> exact .putBack hid hfill _

theorem extend_ok {c c' : Cache} {now : Int} {q : Request} {fill : Fill} {fetched : Fetched} {item : Item}
    (h : c.extend now q fill fetched = (.ok item, c')) :
    q.item ∈ c.ids ∧ c'.items[q.item]? = some item := by
  rw [extend] at h
  cases hid : c.items[q.item]? with
  | none =>
    rw [hid] at h
    cases h
  | some item₀ =>
    rw [hid] at h
    simp only [] at h
    split at h
    · cases h
    · split at h
      · cases h
      · cases h
        exact ⟨mem_ids.2 ⟨item₀, hid⟩, by rw [getElem?_checkIn, if_pos rfl]⟩

theorem shows_finishFill (c : Cache) (now : Int) (q : Request) (fill : Fill)
    (result : Except StoreFailure Fetched) :
    Shows (some q.item) c (c.finishFill now q fill result).2 := by
  cases result with
  | error e => exact .of_still (.giveUp c q _)
  | ok fetched =>
    have hextend := shows_extend c now q fill fetched
    rw [finishFill]
    simp only []
    generalize hextended : c.extend now q fill fetched = extended at hextend
    obtain ⟨e | item, c₁⟩ := extended
    · exact hextend.still (.giveUp c₁ q _)
    · obtain ⟨hin, hid⟩ := extend_ok hextended
      show Shows _ c (c₁.answer now q fetched.records.length item).2
      rw [answer]
      exact (hextend.still ((Still.checkIn hid _).trans (.account _ now _ _ _))).unpin hin now

theorem shows_ingestOne (now expireBefore : Int) (c : Cache) (w : ItemRecord) :
    Shows (some w.item) c (ingestOne now expireBefore c w) := by
  rw [ingestOne]
  simp only []
  cases hid : (c.pin w.item).items[w.item]? with
  | none => exact .of_still (.pin c w.item)
  | some item =>
    have hin : w.item ∈ (c.pin w.item).ids := mem_ids.2 ⟨item, hid⟩
    refine Shows.after (.pin c w.item) (Shows.unpin ?_ hin now)
    have hoffer := Tallies.offer ((c.pin w.item).checkOut w.item) now w.item expireBefore w.record item
    generalize ((c.pin w.item).checkOut w.item).offer now expireBefore w.item w.record item = offered
      at hoffer
    obtain ⟨e | ⟨⟨⟩⟩, item', c₁⟩ := offered
    · exact (Shows.putBack hid hoffer _).still (.log _ _)
    · exact .putBack hid hoffer _

theorem tallies_finishBypass (c : Cache) (now : Int) (q : Request) (held : Bool)
    (result : Except StoreFailure (List Record)) : Tallies c (c.finishBypass now q held result) := by
  have hleft : ∀ c₁ : Cache, Still c c₁ → Tallies c (if held then c₁.unpin now q.item else c₁) :=
    fun c₁ hstill => by
      split
      · exact hstill.tallies.trans (.unpin c₁ now q.item)
      · exact hstill.tallies
  cases result with
  | error e => exact hleft c .refl
  | ok records => exact hleft _ (.account c now none 0 records.length)

theorem tallies_reset (c : Cache) : Tallies c c.reset := by
  have hreset : Still (c.ids.foldl requestRemoval c) c.reset :=
    ⟨rfl, rfl, fun _ => ⟨fun h => (by cases h), fun h => (by cases h)⟩⟩
  exact (Tallies.removals c.ids c).still hreset

/-- **A piece of work** changes nothing of what is shown, or an item comes or goes and only the one that
was out of the map is missed. -/
theorem Work.shows (work : Work) (c : Cache) : Shows work.out? c (work.apply c) := by
  cases work with
  | write now expireBefore w => exact shows_ingestOne now expireBefore c w
  | remove id => exact .of_tallies (.requestRemoval c id)
  | reset => exact .of_tallies (tallies_reset c)
  | start now q => exact shows_start c now q
  | finishFill now q fill result => exact shows_finishFill c now q fill result
  | finishBypass now q held result => exact .of_tallies (tallies_finishBypass c now q held result)

/-! ## Runs -/

theorem missed_le (c : Cache) (out : Option ItemId) : c.missed out ≤ 1 := by
  rw [missed]
  split
  · exact Nat.le_refl 1
  · exact Nat.zero_le 1

/-- A stage with a change misses an item if it hides it, and only then. -/
theorem Stage.missed_eq_zero {t : Stage} (hchanged : t.after.ids ≠ t.before.ids) :
    t.after.missed t.work.out? = 0 ↔ ¬ t.Hides := by
  have hshows : Shows t.work.out? t.before t.after := t.work.shows t.before
  cases hout : t.work.out? with
  | none => simp [missed, Hides, hout]
  | some id =>
    rw [hout] at hshows
    have hsubset := hshows.ids (Option.some_ne_none id)
    have hgone : ∃ other ∈ t.before.ids, other ∉ t.after.ids := by
      by_contra hall
      push Not at hall
      exact hchanged (ids_congr fun j => ⟨fun hj => hsubset hj, hall j⟩)
    simp [missed, Hides, hout, hgone]

theorem changed_of_lastChange? {stages : List Stage} {t : Stage} (h : lastChange? stages = some t) :
    t.after.ids ≠ t.before.ids := by
  rw [lastChange?] at h
  simpa using List.find?_some h

theorem lastChange?_concat (stages : List Stage) (t : Stage) : lastChange? (stages ++ [t]) =
    if t.after.ids = t.before.ids then lastChange? stages else some t := by
  rw [lastChange?, List.reverse_append, List.reverse_singleton, List.singleton_append, List.find?_cons]
  by_cases hsame : t.after.ids = t.before.ids
  · simp [hsame, lastChange?]
  · simp [hsame]

namespace Run

variable {config : Config} {stages : List Stage} {c : Cache}

theorem showsMode (h : Run config stages c) : c.ShowsMode := by
  induction h with
  | new =>
    rw [ShowsMode, Cache.new]
    split <;> simp [Telemetry.log, Telemetry.measure]
  | notes _ hnotes ih => exact (Still.notes hnotes).mode ih
  | work _ work ih => exact (work.shows _).mode ih

/-- **The gauge of the items** shows all that are cached but the one that the last stage missed that
changed which they are. -/
theorem gauge_add_behind (h : Run config stages c) : c.gauge + behind stages = c.items.size := by
  induction h with
  | new =>
    rw [gauge, Cache.new]
    split <;> rfl
  | @notes stages c d _ hnotes ih =>
    have hstill := Still.notes hnotes
    rw [hstill.gauge, hstill.size]
    exact ih
  | @work stages c _ work ih =>
    rw [behind, lastChange?_concat]
    show (work.apply c).gauge + (if (work.apply c).ids = c.ids then _ else _ : Option Stage).elim 0 _ = _
    rcases (work.shows c).items with ⟨hids, hgauge⟩ | ⟨hids, hgauge⟩
    · rw [if_pos hids, hgauge, ← length_ids, hids, length_ids]
      exact ih
    · rw [if_neg hids]
      exact hgauge

/-- The gauge shows all items unless the last stage that changed which they are hid one. -/
theorem gauge_eq (h : Run config stages c) (hnone : ∀ t, lastChange? stages = some t → ¬ t.Hides) :
    c.gauge = c.items.size := by
  have hgauge := h.gauge_add_behind
  rw [behind] at hgauge
  cases hlast : lastChange? stages with
  | none =>
    rw [hlast] at hgauge
    exact hgauge
  | some t =>
    have hmissed := (Stage.missed_eq_zero (changed_of_lastChange? hlast)).2 (hnone t hlast)
    rw [hlast, Option.elim_some, hmissed] at hgauge
    exact hgauge

theorem gauge_of_hides (h : Run config stages c) {t : Stage} (hlast : lastChange? stages = some t)
    (hhides : t.Hides) : c.gauge + 1 = c.items.size := by
  have hgauge := h.gauge_add_behind
  have hmissed := (Stage.missed_eq_zero (changed_of_lastChange? hlast)).not.2 (not_not.2 hhides)
  have hle := t.after.missed_le t.work.out?
  rw [behind, hlast, Option.elim_some] at hgauge
  omega

end Run

end Cache

/-! ## Operations -/

/-- A piece of work, or notes, take a run on. -/
theorem Traffic.kept_run (config : Config) :
    Traffic.Kept fun w => ∃ stages, Cache.Run config stages w.cache where
  aside := fun ⟨_, h⟩ hnotes => ⟨_, h.notes hnotes⟩
  ingests {s flights} writes hs := by
    obtain ⟨stages, h⟩ := hs
    show ∃ stages, Cache.Run config stages (s.cache.ingest s.now writes)
    rw [Cache.ingest]
    generalize s.cache.expireBefore s.now = expireBefore
    have h' : Cache.Run config stages s.cache := h
    generalize s.cache = c at h'
    clear h
    induction writes generalizing stages c with
    | nil => exact ⟨stages, h'⟩
    | cons w writes ih => exact ih _ _ (h'.work (.write s.now expireBefore w))
  removes := fun id ⟨_, h⟩ => ⟨_, h.work (.remove id)⟩
  resets := fun ⟨_, h⟩ => ⟨_, h.work .reset⟩
  begins {s flights next c} q hstart := fun ⟨_, h⟩ => by
    have hwork := h.work (.start s.now q)
    rw [Cache.Work.apply, hstart] at hwork
    exact ⟨_, hwork⟩
  reads := fun _ hs => hs
  fills {s flights q fill rest result records c} _ hfinish := fun ⟨_, h⟩ => by
    have hwork := h.work (.finishFill s.now q fill result)
    rw [Cache.Work.apply, hfinish] at hwork
    exact ⟨_, hwork⟩
  loses {s flights q fill rest result c} _ hfinish := fun ⟨_, h⟩ => by
    have hwork := h.work (.finishFill s.now q fill result)
    rw [Cache.Work.apply, hfinish] at hwork
    exact ⟨_, hwork⟩
  passes {s flights q held rest result} _ := fun ⟨_, h⟩ => ⟨_, h.work (.finishBypass s.now q held result)⟩

/-- **The gauges**, for all that operations do: that of the mode shows the mode, and that of the items
shows how many are cached, unless one of them was out of the map when others were evicted for it.  From
then on the gauge shows one too few, until the next item comes or goes. -/
theorem Traffic.gauges_of_reachable {config : Config} {answering : Answering}
    {permits : Service → Operation → Prop}
    (hanswers : ∀ question s answer t, answering question s answer t → t.cache = s.cache)
    {s : Service}
    (hs : Reachable answering permits (fun s => ∃ now, Service.new config now = .ok s) s) :
    (∃ stages, Cache.Run config stages s.cache) ∧
    ∀ stages c, Cache.Run config stages c →
      (c.telemetry.metrics.lowMemory = true ↔ c.mode = .lowMemory) ∧
      ((∀ t, Cache.lastChange? stages = some t → ¬ t.Hides) →
        c.telemetry.metrics.items = c.items.size) ∧
      ∀ t, Cache.lastChange? stages = some t → t.Hides →
        c.telemetry.metrics.items + 1 = c.items.size := by
  refine ⟨?_, fun stages c h => ⟨h.showsMode, h.gauge_eq, fun t hlast hhides => h.gauge_of_hides hlast hhides⟩⟩
  obtain ⟨_, stages, hrun⟩ := hs.traffic (kept_run config) hanswers fun s hnew => by
    obtain ⟨now, hnew⟩ := hnew
    rw [Service.eq_of_new hnew]
    exact ⟨[], .new⟩
  exact ⟨stages, hrun⟩

/-! ## A text that takes the last of the room -/

/-- The service after a request for the numbers of item 8, of which there are none either. -/
def nothingYetOfTwo : Service :=
  (Service.execute Service.plain Service.plain (.call 0 (.get ⟨8, .uint, 60, 0, ⟨1000, 0⟩⟩))
    (nothingYet, ())).2.1

/-- A text that an item keeps as its first record. -/
theorem Cache.offer_first {c c₁ c₂ : Cache} {now expireBefore : Int} {id : ItemId} {item : Item}
    {time : Timestamp} {text : String} (hkind : item.kind = .str) (hstate : item.state = .active)
    (hrecent : ¬ item.lastAccessed < expireBefore) (hhistory : item.history = {})
    (hcovered : ¬ (!item.cachedAll && item.coveredFrom.any fun s => decide (time.sec < s)) = true)
    (hlookup : c.strings.lookup? text = none)
    (htext : c.charge now id (StringPool.entryBytes text) = (.ok (), c₁))
    (hchunk : { c₁ with strings := (c₁.strings.intern text).2 }.charge now id
      (Chunk.bytes (History.capacityFor 1)) = (.ok (), c₂)) :
    ∃ item', c.offer now expireBefore id ⟨time, .str text⟩ item = (.ok (), item', c₂) ∧
      item'.state ≠ .removePending := by
  have hactive : ¬ item.state = .removePending := by simp [hstate]
  have hsame : ¬ item.kind ≠ (⟨time, .str text⟩ : Record).value.kind := not_not.2 hkind
  have hreserve : c.reserve now id ⟨time, .str text⟩ item.history =
      (.ok (⟨time, .str ⟨text⟩⟩, ({} : History).addNewest (History.capacityFor 1)), c₂) := by
    have hhold : c.holdValue now id (.str text) =
        (.ok (.str ⟨text⟩), { c₁ with strings := (c₁.strings.intern text).2 }) := by
      simp [holdValue, holdText, StringPool.intern, Except.map, hlookup, htext]
    have hopen : { c₁ with strings := (c₁.strings.intern text).2 }.openNewest now id {} =
        (.ok (({} : History).addNewest (History.capacityFor 1)), c₂) := by
      rw [openNewest, show ({} : History).reserve? = none from rfl]
      simp only []
      rw [show ({} : History).size + 1 = 1 from rfl, hchunk]
    rw [reserve, hhold, hhistory]
    simp only []
    rw [hopen]
  have hwrite : c.write now id ⟨time, .str text⟩ item = c.append now id ⟨time, .str text⟩ item := by
    rw [write, hhistory, show ({} : History).newest? = none from rfl]
    exact if_neg hcovered
  rw [offer, if_neg hactive, if_neg hsame, if_neg hrecent, hwrite, append, hreserve]
  simp only []
  split
  · refine ⟨_, rfl, ?_⟩
    rw [Item.markClean, if_pos hstate]
    simp
  · exact ⟨_, rfl, hactive⟩

/-- A first text of item 7 that leaves room for its chunk if item 8 is evicted. -/
theorem Cache.ingest_nothingYetOfTwo {text : String} (hlong : text.utf8ByteSize = 130680) :
    (nothingYetOfTwo.cache.ingest 1000 [⟨7, ⟨⟨1000, 0⟩, .str text⟩⟩]).gauge = 0 ∧
      (nothingYetOfTwo.cache.ingest 1000 [⟨7, ⟨⟨1000, 0⟩, .str text⟩⟩]).items.size = 1 := by
  have hpinned : ((nothingYetOfTwo.cache.pin 7).items[7]?).map (fun item => (item.state, item.kind,
      item.lastAccessed, item.history, item.cachedAll, item.coveredFrom)) =
      some (.active, .str, 1000, ({} : History), false, some 940) := by cbv
  have hexpire : nothingYetOfTwo.cache.expireBefore 1000 = 1000 - 86400 := by cbv
  obtain ⟨item, hid, hitem⟩ := Option.map_eq_some_iff.1 hpinned
  simp only [Prod.mk.injEq] at hitem
  obtain ⟨hstate, hkind, haccessed, hhistory, hall, hcovered⟩ := hitem
  -- item 7 is out of the map, so the round that its text takes leaves the map empty
  let c := (nothingYetOfTwo.cache.pin 7).checkOut 7
  have hstrings : c.strings = {} := by cbv
  obtain ⟨c₁, hcharge, hids, hgauge, hbudget⟩ : ∃ c₁, c.charge 1000 7 130685 = (.ok (), c₁) ∧
      c₁.ids = [] ∧ c₁.gauge = 0 ∧ (c₁.budget.used, c₁.budget.total) = (130893, 131072) :=
    ⟨(c.charge 1000 7 130685).2, Prod.ext (by cbv) rfl, by cbv, by cbv, by cbv⟩
  have hbytes : StringPool.entryBytes text = 130685 := by rw [StringPool.entryBytes, hlong]
  have hlookup : c.strings.lookup? text = none := by
    rw [hstrings]
    rfl
  have hfits : c₁.budget.Fits (Chunk.bytes (History.capacityFor 1)) := by
    rw [Prod.mk.injEq] at hbudget
    rw [Budget.Fits, hbudget.1, hbudget.2]
    cbv
  have hchunk : { c₁ with strings := (c₁.strings.intern text).2 }.charge 1000 7
      (Chunk.bytes (History.capacityFor 1)) = (.ok (), { c₁ with
        strings := (c₁.strings.intern text).2
        budget := c₁.budget.charge (Chunk.bytes (History.capacityFor 1)) }) := by
    rw [charge, Budget.tryCharge_of_fits hfits]
  rw [← hbytes] at hcharge
  obtain ⟨item', hoffer, hstate'⟩ : ∃ item', c.offer 1000 (1000 - 86400) 7 ⟨⟨1000, 0⟩, .str text⟩ item =
      (.ok (), item', _) ∧ item'.state ≠ .removePending :=
    offer_first hkind hstate (by rw [haccessed]; decide) hhistory (by rw [hall, hcovered]; decide) hlookup
      hcharge hchunk
  rw [ingest, hexpire, List.foldl_cons, List.foldl_nil, ingestOne]
  simp only [hid]
  rw [hoffer]
  generalize hkept : ({ c₁ with
      strings := (c₁.strings.intern text).2
      budget := c₁.budget.charge (Chunk.bytes (History.capacityFor 1)) } : Cache) = c₂
  have hids' : c₂.ids = [] := by rw [← hkept]; exact hids
  have hgauge' : c₂.gauge = 0 := by rw [← hkept]; exact hgauge
  have hnone : c₂.items[(7 : ItemId)]? = none := by
    by_contra hsome
    have hmem := mem_ids.2 (Option.ne_none_iff_exists'.1 hsome)
    rw [hids'] at hmem
    cases hmem
  have hleft : Still (c₂.checkIn 7 item') ((c₂.checkIn 7 item').unpin 1000 7) := .unpin (fun item₁ hid₁ => by
    rw [getElem?_checkIn, if_pos rfl] at hid₁
    cases hid₁
    exact hstate') 1000
  refine ⟨hleft.gauge.trans hgauge', ?_⟩
  rw [hleft.size, size_checkIn hnone, ← length_ids, hids']
  rfl

/-- The service after such a text was written. -/
def squeezed : Service :=
  (Service.execute Service.plain Service.plain
    (.call 0 (.add [⟨7, ⟨⟨1000, 0⟩, .str (letters 130680)⟩⟩])) (nothingYetOfTwo, ())).2.1

theorem cache_squeezed : squeezed.cache =
    nothingYetOfTwo.cache.ingest 1000 [⟨7, ⟨⟨1000, 0⟩, .str (letters 130680)⟩⟩] := by
  have hnow : nothingYetOfTwo.now = 1000 := by cbv
  rw [squeezed, Service.execute_add (by cbv) (by cbv), hnow]

theorem shown_squeezed : squeezed.cache.gauge = 0 ∧ squeezed.cache.items.size = 1 := by
  rw [cache_squeezed]
  exact Cache.ingest_nothingYetOfTwo (utf8ByteSize_letters 130680)

theorem reachable_squeezed : Reachable (fun _ s _ t => t.cache = s.cache) (fun _ _ => True)
    (fun s => ∃ now, Service.new smallest now = .ok s) squeezed := by
  have hnew : Service.new smallest 1000 = .ok smallService := rfl
  have hquiet : (Service.plain : Backend Unit).Quiet := fun _ _ _ => rfl
  have h₀ : Reachable (fun _ s _ t => t.cache = s.cache) (fun _ _ => True)
      (fun s => ∃ now, Service.new smallest now = .ok s) smallService := .initial _ ⟨1000, hnew⟩
  have h₁ := h₀.after _ (smallService.enable 0) 0 (hquiet.does smallService (.enable 0) ())
  have h₂ := h₁.after _ nothingYet 0 (hquiet.does (smallService.enable 0) _ ())
  have h₃ := h₂.after _ nothingYetOfTwo 0 (hquiet.does nothingYet _ ())
  exact h₃.after _ squeezed 0 (hquiet.does nothingYetOfTwo _ ())

/-- Here a stage hides an item, for the gauge of the items shows one too few. -/
theorem Traffic.gauges_squeezed : (∃ stages t, Cache.Run smallest stages squeezed.cache ∧
      Cache.lastChange? stages = some t ∧ t.Hides) ∧
    (squeezed.cache.telemetry.metrics.lowMemory = true ↔ squeezed.cache.mode = .lowMemory) := by
  obtain ⟨⟨stages, hrun⟩, hlaws⟩ := gauges_of_reachable (fun _ _ _ _ h => h) reachable_squeezed
  obtain ⟨hmode, hshown, -⟩ := hlaws stages _ hrun
  refine ⟨⟨stages, ?_⟩, hmode⟩
  by_contra hnone
  have hgauge := hshown fun t hlast hhides => hnone ⟨t, hrun, hlast, hhides⟩
  have hsqueezed := shown_squeezed
  rw [Cache.gauge, hgauge] at hsqueezed
  omega

/-- An operation is over, one item is cached and the gauge shows none. -/
theorem Traffic.not_gauges_squeezed : Reachable (fun _ s _ t => t.cache = s.cache) (fun _ _ => True)
      (fun s => ∃ now, Service.new smallest now = .ok s) squeezed ∧
    squeezed.cache.telemetry.metrics.items = 0 ∧ squeezed.cache.items.size = 1 := by
  have hsqueezed := shown_squeezed
  rw [Cache.gauge] at hsqueezed
  exact ⟨reachable_squeezed, hsqueezed⟩

end HistoryCache
