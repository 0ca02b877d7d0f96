import HistoryCache.Cache.Ingest
import HistoryCache.Cache.Serve
import HistoryCache.Proofs.Copies
import Mathlib.Logic.Basic

/-!
# What a cache does not look at

The telemetry of a cache, and of its budget the highest use and the number of refusals, are kept for
others to see.  Caches that differ in nothing else (`Cache.Alike`) do the same and stay so, whatever is
done to them: there is one lemma for each function of the cache.
-/

namespace HistoryCache

/-- Two results come with the same answer and leave states that are related. -/
def Agree {α β : Type} (R : β → β → Prop) (p q : α × β) : Prop := p.1 = q.1 ∧ R p.2 q.2

theorem Agree.cases {α β : Type} {R : β → β → Prop} {p q : α × β} (h : Agree R p q) :
    ∃ a b c, p = (a, b) ∧ q = (a, c) ∧ R b c :=
  ⟨p.1, p.2, q.2, rfl, Prod.ext h.1.symm rfl, h.2⟩

/-- Two budgets have the same use. -/
def Budget.Alike (b b' : Budget) : Prop :=
  ∃ highWatermark refused, b' = { b with highWatermark := highWatermark, refused := refused }

theorem Budget.Alike.tryCharge {b b' : Budget} (h : b.Alike b') (size : Nat) :
    Agree Alike (b.tryCharge size) (b'.tryCharge size) := by
  obtain ⟨w, n, rfl⟩ := h
  by_cases hfits : b.Fits size
  · have hfits' : Fits { b with highWatermark := w, refused := n } size := hfits
    rw [tryCharge_of_fits hfits, tryCharge_of_fits hfits']
    exact ⟨rfl, _, _, rfl⟩
  · have hfits' : ¬ Fits { b with highWatermark := w, refused := n } size := hfits
    rw [tryCharge_of_not_fits hfits, tryCharge_of_not_fits hfits']
    exact ⟨rfl, _, _, rfl⟩

namespace Cache

/-- Two caches differ only in what no cache looks at. -/
def Alike (c d : Cache) : Prop :=
  ∃ telemetry highWatermark refused, d =
    { c with
      budget := { c.budget with highWatermark := highWatermark, refused := refused }
      telemetry := telemetry }

namespace Alike

variable {c d e : Cache}

theorem symm (h : c.Alike d) : d.Alike c := by
  obtain ⟨t, w, n, rfl⟩ := h
  exact ⟨_, _, _, rfl⟩

theorem trans (h : c.Alike d) (k : d.Alike e) : c.Alike e := by
  obtain ⟨t, w, n, rfl⟩ := h
  obtain ⟨t', w', n', rfl⟩ := k
  exact ⟨_, _, _, rfl⟩

theorem config (h : c.Alike d) : d.config = c.config := by
  obtain ⟨t, w, n, rfl⟩ := h
  rfl

theorem items (h : c.Alike d) : d.items = c.items := by
  obtain ⟨t, w, n, rfl⟩ := h
  rfl

theorem strings (h : c.Alike d) : d.strings = c.strings := by
  obtain ⟨t, w, n, rfl⟩ := h
  rfl

theorem mode (h : c.Alike d) : d.mode = c.mode := by
  obtain ⟨t, w, n, rfl⟩ := h
  rfl

theorem budget (h : c.Alike d) : c.budget.Alike d.budget := by
  obtain ⟨t, w, n, rfl⟩ := h
  exact ⟨_, _, rfl⟩

theorem clock (h : c.Alike d) : d.clock = c.clock := by
  obtain ⟨t, w, n, rfl⟩ := h
  rfl

theorem total (h : c.Alike d) : d.budget.total = c.budget.total := by
  obtain ⟨t, w, n, rfl⟩ := h
  rfl

theorem ids (h : c.Alike d) : d.ids = c.ids := by rw [Cache.ids, h.items, Cache.ids]

theorem itemStats (h : c.Alike d) : d.itemStats = c.itemStats := by
  rw [Cache.itemStats, h.items, Cache.itemStats]

/-! ## Telemetry -/

theorem aside (c : Cache) (t : Telemetry) : c.Alike { c with telemetry := t } := ⟨_, _, _, rfl⟩

theorem told (h : c.Alike d) (t t' : Telemetry) :
    { c with telemetry := t }.Alike { d with telemetry := t' } := by
  obtain ⟨_, _, _, rfl⟩ := h
  exact ⟨_, _, _, rfl⟩

theorem log (h : c.Alike d) (e e' : Event) : (c.log e).Alike (d.log e') := h.told _ _

theorem measure (h : c.Alike d) (f f' : Metrics → Metrics) : (c.measure f).Alike (d.measure f') :=
  h.told _ _

theorem reportItems (c : Cache) : c.Alike c.reportItems := by
  have hlogged : ∀ (reports : List ItemStats) (total : Nat) (d : Cache), c.Alike d →
      c.Alike (reports.foldl (fun d stats => d.log (.itemReport stats total)) d) := by
    intro reports total
    induction reports with
    | nil => exact fun d h => h
    | cons stats reports ih => exact fun d h => ih _ (h.trans (aside d _))
  exact hlogged _ _ _ (aside c _)

/-! ## The map -/

theorem withItems (h : c.Alike d) (items : Items) :
    { c with items := items }.Alike { d with items := items } := by
  obtain ⟨t, w, n, rfl⟩ := h
  exact ⟨_, _, _, rfl⟩

theorem checkIn (h : c.Alike d) (id : ItemId) (item : Item) :
    (c.checkIn id item).Alike (d.checkIn id item) := by
  rw [Cache.checkIn, Cache.checkIn, h.items]
  exact h.withItems _

theorem checkOut (h : c.Alike d) (id : ItemId) : (c.checkOut id).Alike (d.checkOut id) := by
  rw [Cache.checkOut, Cache.checkOut, h.items]
  exact h.withItems _

theorem modify (h : c.Alike d) (id : ItemId) (f : Item → Item) :
    (c.modify id f).Alike (d.modify id f) := by
  rw [Cache.modify, Cache.modify, h.items]
  cases c.items[id]? with
  | none => exact h
  | some item => exact h.withItems _

theorem measureItems (h : c.Alike d) : c.measureItems.Alike d.measureItems := h.measure _ _

/-! ## Giving back -/

theorem withStrings (h : c.Alike d) (strings : StringPool) :
    { c with strings := strings }.Alike { d with strings := strings } := by
  obtain ⟨t, w, n, rfl⟩ := h
  exact ⟨_, _, _, rfl⟩

theorem refund (h : c.Alike d) (size : Nat) : (c.refund size).Alike (d.refund size) := by
  obtain ⟨t, w, n, rfl⟩ := h
  exact ⟨_, _, _, rfl⟩

theorem releaseText (h : c.Alike d) (s : Handle) :
    Agree Alike (c.releaseText s) (d.releaseText s) := by
  rw [Cache.releaseText, Cache.releaseText, h.strings]
  obtain ⟨freed, strings⟩ := c.strings.release s
  refine ⟨rfl, ?_⟩
  show Alike (if 0 < freed then _ else _) (if 0 < freed then _ else _)
  split
  · exact (h.withStrings strings).refund freed
  · exact h.withStrings strings

theorem freeAll {α : Type} {f : α → Cache → Nat × Cache}
    (hf : ∀ (a : α) {c d : Cache}, c.Alike d → Agree Alike (f a c) (f a d)) (as : List α)
    (h : c.Alike d) : Agree Alike (Cache.freeAll f as c) (Cache.freeAll f as d) := by
  induction as generalizing c d with
  | nil => exact ⟨rfl, h⟩
  | cons a as ih =>
    have hfirst := hf a h
    have hrest := ih hfirst.2
    exact ⟨congrArg₂ (· + ·) hfirst.1 hrest.1, hrest.2⟩

theorem releaseTexts (h : c.Alike d) (handles : List Handle) :
    Agree Alike (c.releaseTexts handles) (d.releaseTexts handles) :=
  freeAll (fun s _ _ h => h.releaseText s) handles h

theorem releaseValue (h : c.Alike d) (v : CachedValue) :
    Agree Alike (c.releaseValue v) (d.releaseValue v) := by
  cases v with
  | log entry =>
    have hfreed := (h.refund LogEntry.bytes).releaseTexts entry.handles
    exact ⟨congrArg (LogEntry.bytes + ·) hfreed.1, hfreed.2⟩
  | float | str | uint | text => exact h.releaseTexts _

theorem release (h : c.Alike d) (gone : Released) :
    Agree Alike (c.release gone) (d.release gone) := by
  have hrecords := freeAll (f := fun (r : CachedRecord) (c : Cache) => c.releaseValue r.value)
    (fun r _ _ h => h.releaseValue r.value) gone.kept h
  have hchunks := freeAll (f := fun (n : Nat) (c : Cache) =>
    (Chunk.bytes n, c.refund (Chunk.bytes n))) (fun n _ _ h => ⟨rfl, h.refund _⟩) gone.chunks
    hrecords.2
  exact ⟨congrArg₂ (· + ·) hrecords.1 hchunks.1, hchunks.2⟩

theorem remove (h : c.Alike d) (id : ItemId) : Agree Alike (c.remove id) (d.remove id) := by
  rw [Cache.remove, Cache.remove, h.items]
  cases c.items[id]? with
  | none => exact ⟨rfl, h⟩
  | some item =>
    have hfreed := (h.checkOut id).release item.history.releaseAll
    exact ⟨congrArg (· + Item.entryBytes) hfreed.1, (hfreed.2.refund _).measureItems⟩

theorem requestRemoval (h : c.Alike d) (id : ItemId) :
    (c.requestRemoval id).Alike (d.requestRemoval id) := by
  rw [Cache.requestRemoval, Cache.requestRemoval, h.items]
  cases c.items[id]? with
  | none => exact h
  | some item =>
    simp only []
    split
    · exact h.checkIn id _
    · exact (h.remove id).2

theorem removals (h : c.Alike d) (ids : List ItemId) :
    (ids.foldl Cache.requestRemoval c).Alike (ids.foldl Cache.requestRemoval d) := by
  induction ids generalizing c d with
  | nil => exact h
  | cons id ids ih => exact ih (h.requestRemoval id)

theorem reset (h : c.Alike d) : c.reset.Alike d.reset := by
  have hremoved := h.removals c.ids
  rw [Cache.reset, Cache.reset, h.ids, Cache.resetIn, Cache.resetIn]
  refine measure ?_ _ _
  generalize c.ids.foldl Cache.requestRemoval c = c' at hremoved
  obtain ⟨t, w, n, hd⟩ := hremoved
  rw [hd]
  exact ⟨_, _, _, rfl⟩

/-! ## Making space -/

theorem evict (h : c.Alike d) (reason : EvictionReason) (id : ItemId) :
    Agree Alike (Cache.evict reason id c) (Cache.evict reason id d) :=
  ⟨(h.remove id).1, (h.remove id).2.measure _ _⟩

theorem evictIdleIn (h : c.Alike d) (order : List ItemId) (source : ItemId) (before : Int) :
    Agree Alike (c.evictIdleIn order source before) (d.evictIdleIn order source before) := by
  have hidle : d.idle source before = c.idle source before := by
    funext id
    rw [idle, evictable, h.items, idle, evictable]
  rw [Cache.evictIdleIn, Cache.evictIdleIn, hidle]
  exact freeAll (fun id _ _ h => h.evict .expired id) _ h

theorem evictUntil (h : c.Alike d) (need : Nat) (ids : List ItemId) (freed : Nat) :
    (Cache.evictUntil need ids freed c).Alike (Cache.evictUntil need ids freed d) := by
  induction ids generalizing freed c d with
  | nil => exact h
  | cons id ids ih =>
    obtain ⟨more, c₁, d₁, hc, hd, h₁⟩ := (h.evict .weight id).cases
    simp only [Cache.evictUntil, hc, hd]
    split
    · exact h
    · exact ih h₁ _

theorem byWeightIn (h : c.Alike d) (order : List ItemId) (source : ItemId) :
    d.byWeightIn order source = c.byWeightIn order source := by
  have hevictable : d.evictable source = c.evictable source := by
    funext id
    rw [evictable, h.items, evictable]
  rw [Cache.byWeightIn, hevictable, h.items, Cache.byWeightIn]

theorem enterLowMemory (h : c.Alike d) (now : Int) (requested : Nat) :
    (c.enterLowMemory now requested).Alike (d.enterLowMemory now requested) := by
  have hentered : ∀ {c d : Cache}, c.Alike d →
      { c with mode := .lowMemory, modeSince := now }.Alike
        { d with mode := .lowMemory, modeSince := now } := by
    rintro c d ⟨t, w, n, rfl⟩
    exact ⟨_, _, _, rfl⟩
  rw [Cache.enterLowMemory, Cache.enterLowMemory, h.mode]
  refine measure (hentered ?_) _ _
  split
  · exact h
  · exact h.log _ _

theorem warnLowMemory (h : c.Alike d) (now : Int) :
    (c.warnLowMemory now).Alike (d.warnLowMemory now) := by
  obtain ⟨t, w, n, rfl⟩ := h
  rw [Cache.warnLowMemory, Cache.warnLowMemory]
  split
  · exact ⟨_, _, _, rfl⟩
  · split
    · have hnoted : { c with lastWarning := now }.Alike
          { c with
            budget := { c.budget with highWatermark := w, refused := n }
            telemetry := t
            lastWarning := now } := ⟨_, _, _, rfl⟩
      have hreported := (reportItems _).symm.trans (hnoted.trans (reportItems _))
      exact (hreported.log _ _).log _ _
    · exact ⟨_, _, _, rfl⟩

theorem withClock (h : c.Alike d) (looks : List Looks) :
    { c with clock := looks }.Alike { d with clock := looks } := by
  obtain ⟨t, w, n, rfl⟩ := h
  exact ⟨_, _, _, rfl⟩

theorem expireBefore (h : c.Alike d) (now : Int) : d.expireBefore now = c.expireBefore now := by
  rw [Cache.expireBefore, h.config, Cache.expireBefore]

theorem makeSpaceIn (h : c.Alike d) (order : List ItemId) (looks : Looks) (source : ItemId)
    (size : Nat) :
    (c.makeSpaceIn order looks source size).Alike (d.makeSpaceIn order looks source size) := by
  have hleast : d.leastRelease = c.leastRelease := by rw [leastRelease, h.total, leastRelease]
  obtain ⟨freed, c₁, d₁, hc, hd, h₁⟩ :=
    (h.evictIdleIn order source (c.expireBefore looks.start)).cases
  simp only [Cache.makeSpaceIn, hleast, h.expireBefore, hc, hd]
  split
  · exact h₁
  · have hentered := (h₁.enterLowMemory looks.start size).warnLowMemory looks.warning
    rw [hentered.byWeightIn]
    exact hentered.evictUntil _ _ _

theorem makeSpace (h : c.Alike d) (now : Int) (source : ItemId) (size : Nat) :
    (c.makeSpace now source size).Alike (d.makeSpace now source size) := by
  have hticked : ∀ {c d : Cache}, c.Alike d → c.tick.Alike d.tick := by
    intro c d h
    rw [tick, tick, h.clock]
    exact h.withClock _
  have hlooks : d.looks now = c.looks now := by rw [looks, h.clock, looks]
  rw [Cache.makeSpace, Cache.makeSpace, h.ids, hlooks]
  exact hticked (h.makeSpaceIn _ _ source size)

/-! ## Charging -/

theorem withBudget (h : c.Alike d) {b b' : Budget} (hb : b.Alike b') :
    { c with budget := b }.Alike { d with budget := b' } := by
  obtain ⟨t, _, _, rfl⟩ := h
  obtain ⟨w, n, rfl⟩ := hb
  exact ⟨_, _, _, rfl⟩

theorem charge (h : c.Alike d) (now : Int) (source : ItemId) (size : Nat) :
    Agree Alike (c.charge now source size) (d.charge now source size) := by
  obtain ⟨fits, b, b', hc, hd, hb⟩ := (h.budget.tryCharge size).cases
  rw [Cache.charge, Cache.charge, hc, hd]
  cases fits with
  | true => exact ⟨rfl, h.withBudget hb⟩
  | false =>
    have hspace := (h.withBudget hb).makeSpace now source size
    obtain ⟨fits, b, b', hc, hd, hb⟩ := (hspace.budget.tryCharge size).cases
    simp only [hc, hd]
    cases fits with
    | true => exact ⟨rfl, hspace.withBudget hb⟩
    | false => exact ⟨rfl, hspace.withBudget hb⟩

theorem holdText (h : c.Alike d) (now : Int) (source : ItemId) (s : String) :
    Agree Alike (c.holdText now source s) (d.holdText now source s) := by
  rw [Cache.holdText, Cache.holdText, h.strings]
  cases c.strings.lookup? s with
  | some found => exact ⟨rfl, h.withStrings _⟩
  | none =>
    obtain ⟨r, c₁, d₁, hc, hd, h₁⟩ := (h.charge now source (StringPool.entryBytes s)).cases
    rw [hc, hd]
    cases r with
    | ok =>
      refine ⟨rfl, ?_⟩
      show Alike { c₁ with strings := (c₁.strings.intern s).2 }
        { d₁ with strings := (d₁.strings.intern s).2 }
      rw [h₁.strings]
      exact h₁.withStrings _
    | error e => exact ⟨rfl, h₁⟩

theorem takeTexts (h : c.Alike d) (now : Int) (source : ItemId) (ss : List String) :
    Agree Alike (Cache.takeTexts now source ss c) (Cache.takeTexts now source ss d) := by
  induction ss generalizing c d with
  | nil => exact ⟨rfl, h⟩
  | cons s ss ih =>
    obtain ⟨r, c₁, d₁, hc, hd, h₁⟩ := (h.holdText now source s).cases
    rw [Cache.takeTexts, Cache.takeTexts, hc, hd]
    cases r with
    | error e => exact ⟨rfl, h₁⟩
    | ok handle =>
      obtain ⟨r, c₂, d₂, hc, hd, h₂⟩ := (ih h₁).cases
      simp only [hc, hd]
      cases r with
      | ok => exact ⟨rfl, h₂⟩
      | error e => exact ⟨rfl, (h₂.releaseText handle).2⟩

theorem takeValue (h : c.Alike d) (now : Int) (source : ItemId) (v : Value) :
    Agree Alike (c.takeValue now source v) (d.takeValue now source v) := by
  cases v with
  | log entry =>
    obtain ⟨r, c₁, d₁, hc, hd, h₁⟩ := (h.charge now source LogEntry.bytes).cases
    simp only [Cache.takeValue, hc, hd]
    cases r with
    | error e => exact ⟨rfl, h₁⟩
    | ok =>
      obtain ⟨r, c₂, d₂, hc, hd, h₂⟩ := (h₁.takeTexts now source (Value.log entry).texts).cases
      simp only [hc, hd]
      cases r with
      | ok => exact ⟨rfl, h₂⟩
      | error e => exact ⟨rfl, h₂.refund _⟩
  | float | str | uint | text => exact h.takeTexts now source _

theorem holdValue (h : c.Alike d) (now : Int) (source : ItemId) (v : Value) :
    Agree Alike (c.holdValue now source v) (d.holdValue now source v) := by
  obtain ⟨r, c₁, d₁, hc, hd, h₁⟩ := (h.takeValue now source v).cases
  rw [holdValue_eq, holdValue_eq, hc, hd]
  exact ⟨rfl, h₁⟩

theorem create (h : c.Alike d) (now : Int) (id : ItemId) (kind : Kind) :
    Agree Alike (c.create now id kind) (d.create now id kind) := by
  obtain ⟨r, c₁, d₁, hc, hd, h₁⟩ := (h.charge now id Item.entryBytes).cases
  rw [Cache.create, Cache.create, hc, hd]
  cases r with
  | ok => exact ⟨rfl, (h₁.checkIn id _).measureItems⟩
  | error e => exact ⟨rfl, h₁⟩

/-! ## Growing and shrinking a history -/

theorem openOldest (h : c.Alike d) (now : Int) (id : ItemId) (waiting : List Record)
    (history : History) :
    Agree Alike (c.openOldest now id waiting history) (d.openOldest now id waiting history) := by
  rw [Cache.openOldest, Cache.openOldest]
  split
  · exact ⟨rfl, h⟩
  · obtain ⟨r, c₁, d₁, hc, hd, h₁⟩ := (h.charge now id
      (Chunk.bytes (History.capacityFor (history.size + waiting.length)))).cases
    simp only [hc, hd]
    cases r with
    | ok => exact ⟨rfl, h₁⟩
    | error e => exact ⟨rfl, h₁⟩

theorem fill (h : c.Alike d) (now : Int) (id : ItemId) (records : List Record) (history : History) :
    Agree (Agree Alike) (Cache.fill now id records history c)
      (Cache.fill now id records history d) := by
  induction records generalizing history c d with
  | nil => exact ⟨rfl, rfl, h⟩
  | cons r older ih =>
    obtain ⟨result, c₁, d₁, hc, hd, h₁⟩ := (h.openOldest now id (r :: older) history).cases
    rw [Cache.fill, Cache.fill, hc, hd]
    cases result with
    | error e => exact ⟨rfl, rfl, h₁⟩
    | ok history =>
      obtain ⟨result, c₂, d₂, hc, hd, h₂⟩ := (h₁.holdValue now id r.value).cases
      simp only [hc, hd]
      cases result with
      | ok => exact ih h₂ _
      | error e => exact ⟨rfl, rfl, (h₂.release _).2⟩

theorem prepend (h : c.Alike d) (now : Int) (id : ItemId) (records : List Record) (item : Item) :
    Agree (Agree Alike) (c.prepend now id records item) (d.prepend now id records item) := by
  have hfilled := h.fill now id (belowHistory item.history records) item.history
  exact ⟨hfilled.1, congrArg (fun h => { item with history := h }) hfilled.2.1, hfilled.2.2⟩

theorem openNewest (h : c.Alike d) (now : Int) (id : ItemId) (history : History) :
    Agree Alike (c.openNewest now id history) (d.openNewest now id history) := by
  rw [Cache.openNewest, Cache.openNewest]
  cases history.reserve? with
  | some opened => exact ⟨rfl, h⟩
  | none =>
    obtain ⟨r, c₁, d₁, hc, hd, h₁⟩ :=
      (h.charge now id (Chunk.bytes (History.capacityFor (history.size + 1)))).cases
    simp only [hc, hd]
    cases r with
    | ok => exact ⟨rfl, h₁⟩
    | error e => exact ⟨rfl, h₁⟩

theorem reserve (h : c.Alike d) (now : Int) (id : ItemId) (r : Record) (history : History) :
    Agree Alike (c.reserve now id r history) (d.reserve now id r history) := by
  obtain ⟨held, c₁, d₁, hc, hd, h₁⟩ := (h.holdValue now id r.value).cases
  rw [Cache.reserve, Cache.reserve, hc, hd]
  cases held with
  | error e => exact ⟨rfl, h₁⟩
  | ok =>
    obtain ⟨opened, c₂, d₂, hc, hd, h₂⟩ := (h₁.openNewest now id history).cases
    simp only [hc, hd]
    cases opened with
    | ok => exact ⟨rfl, h₂⟩
    | error e => exact ⟨rfl, (h₂.releaseValue _).2⟩

theorem append (h : c.Alike d) (now : Int) (id : ItemId) (r : Record) (item : Item) :
    Agree (Agree Alike) (c.append now id r item) (d.append now id r item) := by
  obtain ⟨reserved, c₁, d₁, hc, hd, h₁⟩ := (h.reserve now id r item.history).cases
  rw [Cache.append, Cache.append, hc, hd]
  cases reserved with
  | error e => exact ⟨rfl, rfl, h₁⟩
  | ok => exact ⟨rfl, rfl, h₁⟩

theorem insert (h : c.Alike d) (now : Int) (id : ItemId) (r : Record) (item : Item) :
    Agree (Agree Alike) (c.insert now id r item) (d.insert now id r item) := by
  rw [Cache.insert, Cache.insert]
  cases item.history.position? r.time with
  | none => exact ⟨rfl, rfl, h⟩
  | some after =>
    obtain ⟨reserved, c₁, d₁, hc, hd, h₁⟩ := (h.reserve now id r item.history).cases
    simp only [hc, hd]
    cases reserved with
    | error e => exact ⟨rfl, rfl, h₁⟩
    | ok reserved =>
      obtain ⟨kept, top, history⟩ := reserved
      simp only []
      obtain ⟨spot | spot, history'⟩ := history.makeRoom after top
      · exact ⟨rfl, rfl, (h₁.releaseValue _).2⟩
      · exact ⟨rfl, rfl, h₁⟩

theorem dropThrough (h : c.Alike d) (sec : Int) (item : Item) :
    Agree Alike (c.dropThrough sec item) (d.dropThrough sec item) :=
  ⟨rfl, (h.release _).2⟩

theorem write (h : c.Alike d) (now : Int) (id : ItemId) (r : Record) (item : Item) :
    Agree (Agree Alike) (c.write now id r item) (d.write now id r item) := by
  rw [Cache.write, Cache.write]
  split
  · split
    · exact h.append now id r item
    · split
      · exact h.insert now id r item
      · exact ⟨rfl, h.dropThrough r.sec _⟩
  · split
    · exact ⟨rfl, rfl, h⟩
    · exact h.append now id r item
  · exact h.append now id r item

theorem trim (h : c.Alike d) (now : Int) (item : Item) :
    Agree Alike (c.trim now item) (d.trim now item) := by
  rw [Cache.trim, Cache.trim]
  split
  · exact ⟨rfl, h⟩
  · split
    · exact ⟨rfl, (h.release _).2⟩
    · exact ⟨rfl, h⟩

/-! ## Holding items and taking writes -/

theorem pin (h : c.Alike d) (id : ItemId) : (c.pin id).Alike (d.pin id) := h.modify id _

theorem unpin (h : c.Alike d) (now : Int) (id : ItemId) : (c.unpin now id).Alike (d.unpin now id) := by
  rw [Cache.unpin, Cache.unpin, h.items]
  cases c.items[id]? with
  | none => exact h
  | some item =>
    simp only []
    split
    · exact h.checkIn id _
    · split
      · exact h.checkIn id _
      · exact ((h.checkIn id _).remove id).2
      · obtain ⟨trimmed, c₁, d₁, hc, hd, h₁⟩ :=
          ((h.checkOut id).trim now { item with pins := item.pins - 1 }).cases
        simp only [hc, hd]
        exact h₁.checkIn id _

theorem offer (h : c.Alike d) (now expireBefore : Int) (id : ItemId) (r : Record) (item : Item) :
    Agree (Agree Alike) (c.offer now expireBefore id r item) (d.offer now expireBefore id r item) := by
  rw [Cache.offer, Cache.offer]
  split
  · exact ⟨rfl, rfl, h⟩
  · split
    · exact ⟨rfl, rfl, h⟩
    · split
      · exact ⟨rfl, rfl, h⟩
      · obtain ⟨result, left, left', hc, hd, hleft⟩ := (h.write now id r item).cases
        obtain ⟨item', c₁, d₁, rfl, rfl, h₁⟩ := hleft.cases
        simp only [hc, hd]
        cases result with
        | error e => exact ⟨rfl, rfl, h₁⟩
        | ok =>
          simp only []
          split <;> exact ⟨rfl, rfl, h₁⟩

theorem ingestOne (h : c.Alike d) (now expireBefore : Int) (w : ItemRecord) :
    (Cache.ingestOne now expireBefore c w).Alike (Cache.ingestOne now expireBefore d w) := by
  have hpinned := h.pin w.item
  rw [Cache.ingestOne, Cache.ingestOne]
  simp only [hpinned.items]
  cases (c.pin w.item).items[w.item]? with
  | none => exact hpinned
  | some item =>
    refine unpin ?_ now w.item
    obtain ⟨result, left, left', hc, hd, hleft⟩ :=
      ((hpinned.checkOut w.item).offer now expireBefore w.item w.record item).cases
    obtain ⟨item', c₁, d₁, rfl, rfl, h₁⟩ := hleft.cases
    simp only [hc, hd]
    cases result with
    | ok => exact h₁.checkIn w.item _
    | error e => exact (h₁.checkIn w.item _).log _ _

theorem ingest (h : c.Alike d) (now : Int) (writes : List ItemRecord) :
    (c.ingest now writes).Alike (d.ingest now writes) := by
  rw [Cache.ingest, Cache.ingest, h.expireBefore]
  generalize c.expireBefore now = expireBefore
  induction writes generalizing c d with
  | nil => exact h
  | cons w writes ih => exact ih (h.ingestOne now expireBefore w)

/-! ## Serving requests -/

theorem account (h : c.Alike d) (now : Int) (id : Option ItemId) (hits misses : Nat) :
    (c.account now id hits misses).Alike (d.account now id hits misses) := by
  have hcounted : ∀ {c d : Cache}, c.Alike d →
      ({ c with hits := c.hits + hits, misses := c.misses + misses }.measure
        (·.served hits misses)).Alike
        ({ d with hits := d.hits + hits, misses := d.misses + misses }.measure
          (·.served hits misses)) := by
    rintro c d ⟨t, w, n, rfl⟩
    exact ⟨_, _, _, rfl⟩
  cases id with
  | none => exact hcounted h
  | some id => exact hcounted (h.modify id _)

theorem ensure (h : c.Alike d) (now : Int) (q : Request) :
    Agree Alike (c.ensure now q) (d.ensure now q) := by
  rw [Cache.ensure, Cache.ensure, h.items, h.mode]
  split
  · exact ⟨rfl, h⟩
  · split
    · exact ⟨rfl, h⟩
    · obtain ⟨r, c₁, d₁, hc, hd, h₁⟩ := (h.create now q.item q.kind).cases
      rw [hc, hd]
      cases r with
      | ok => exact ⟨rfl, h₁⟩
      | error e => exact ⟨rfl, h₁.log _ _⟩

theorem servable (h : c.Alike d) (q : Request) : d.servable q = c.servable q := by
  rw [Cache.servable, h.items, Cache.servable]

theorem answer (h : c.Alike d) (now : Int) (q : Request) (read : Nat) (item : Item) :
    Agree Alike (c.answer now q read item) (d.answer now q read item) :=
  ⟨rfl, ((h.checkIn q.item _).account now _ _ _).unpin now q.item⟩

theorem giveUp (h : c.Alike d) (q : Request) (e : Failure) : (c.giveUp q e).Alike (d.giveUp q e) :=
  (h.log _ _).modify q.item _

theorem start (h : c.Alike d) (now : Int) (q : Request) :
    Agree Alike (c.start now q) (d.start now q) := by
  have hgreeted : (if c.mode = .lowMemory then c.warnLowMemory now else c).Alike
      (if c.mode = .lowMemory then d.warnLowMemory now else d) := by
    split
    · exact h.warnLowMemory now
    · exact h
  rw [Cache.start, Cache.start, h.mode]
  obtain ⟨admitted, c₁, d₁, hc, hd, h₁⟩ := (hgreeted.ensure now q).cases
  simp only [hc, hd]
  cases admitted with
  | false => exact ⟨rfl, h₁⟩
  | true =>
    have hpinned := h₁.pin q.item
    simp only [hpinned.servable]
    cases (c₁.pin q.item).servable q with
    | error e => exact ⟨rfl, hpinned.giveUp q _⟩
    | ok item =>
      simp only []
      cases q.missing? item with
      | some fill => exact ⟨rfl, hpinned⟩
      | none =>
        have hanswered := hpinned.answer now q 0 item
        exact ⟨congrArg Start.answer hanswered.1, hanswered.2⟩

theorem extend (h : c.Alike d) (now : Int) (q : Request) (fill : Fill) (fetched : Fetched) :
    Agree Alike (c.extend now q fill fetched) (d.extend now q fill fetched) := by
  rw [Cache.extend, Cache.extend, h.items]
  cases c.items[q.item]? with
  | none => exact ⟨rfl, h⟩
  | some item =>
    simp only []
    split
    · exact ⟨rfl, h⟩
    · obtain ⟨result, left, left', hc, hd, hleft⟩ :=
        ((h.checkOut q.item).prepend now q.item fetched.records item).cases
      obtain ⟨item', c₁, d₁, rfl, rfl, h₁⟩ := hleft.cases
      simp only [hc, hd]
      cases result with
      | error e => exact ⟨rfl, h₁.checkIn q.item _⟩
      | ok => exact ⟨rfl, h₁.checkIn q.item _⟩

theorem finishFill (h : c.Alike d) (now : Int) (q : Request) (fill : Fill)
    (result : Except StoreFailure Fetched) :
    Agree Alike (c.finishFill now q fill result) (d.finishFill now q fill result) := by
  cases result with
  | error e => exact ⟨rfl, h.giveUp q _⟩
  | ok fetched =>
    obtain ⟨extended, c₁, d₁, hc, hd, h₁⟩ := (h.extend now q fill fetched).cases
    simp only [Cache.finishFill, hc, hd]
    cases extended with
    | error e => exact ⟨rfl, h₁.giveUp q _⟩
    | ok item =>
      have hanswered := h₁.answer now q fetched.records.length item
      exact ⟨congrArg some hanswered.1, hanswered.2⟩

theorem finishBypass (h : c.Alike d) (now : Int) (q : Request) (held : Bool)
    (result : Except StoreFailure (List Record)) :
    (c.finishBypass now q held result).Alike (d.finishBypass now q held result) := by
  have hleft : ∀ {c d : Cache}, c.Alike d → (if held then c.unpin now q.item else c).Alike
      (if held then d.unpin now q.item else d) := by
    intro c d h
    split
    · exact h.unpin now q.item
    · exact h
  cases result with
  | ok records => exact hleft (h.account now none 0 records.length)
  | error e => exact hleft h

/-- What is told of two caches is the same. -/
theorem stats (h : c.Alike d) : Agree Alike c.stats d.stats := by
  obtain ⟨t, w, n, rfl⟩ := h
  exact ⟨rfl, _, _, _, rfl⟩

end Alike

end Cache

end HistoryCache
