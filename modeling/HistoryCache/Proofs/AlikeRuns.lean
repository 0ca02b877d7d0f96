import HistoryCache.Proofs.Alike
import HistoryCache.Schedule
import Mathlib.Data.List.Forall2

/-!
# Runs that look the same

Services whose caches differ only in what no cache looks at (`Service.Alike`) answer the same, put the
same questions to their stores and stay alike.  What is told of the budget may differ in the highest
use and the refusals, the text of the metrics in anything (`Reply.Alike`).

* `Schedule.Alike.run`: so do runs of operations, with the operations of others in between.
-/

namespace HistoryCache

/-! ## What is told -/

/-- Two replies are the same, but that budgets are told of by their use and metrics are passed over. -/
inductive Reply.Alike : Reply → Reply → Prop
  | same (r : Reply) : Alike r r
  | memory (b b' : Budget) (h : b.Alike b') : Alike (.memory (.ok b)) (.memory (.ok b'))
  | metrics (m m' : Metrics) : Alike (.text m.text) (.text m'.text)

/-- Two snapshots are the same, but for what is told of their budgets. -/
structure Snapshot.Alike (a b : Snapshot) : Prop where
  stats : a.stats = b.stats
  budget : a.budget.Alike b.budget
  items : a.items = b.items

/-- Two steps of a batch reply alike and come to states that look the same. -/
def StepAlike (a b : Reply × Option Snapshot) : Prop :=
  a.1.Alike b.1 ∧ Option.Rel Snapshot.Alike a.2 b.2

inductive Answer.Alike : Answer → Answer → Prop
  | reply (r r' : Reply) (h : r.Alike r') : Alike (.reply r) (.reply r')
  | batch (steps steps' : List (Reply × Option Snapshot)) (h : List.Forall₂ StepAlike steps steps') :
      Alike (.batch steps) (.batch steps')

/-- Two operations of others are the same and answer alike. -/
structure Interlude.Alike (a b : Interlude) : Prop where
  read : a.read = b.read
  interruption : a.interruption = b.interruption
  position : a.position = b.position
  answer : a.answer.Alike b.answer
  snapshot : Option.Rel Snapshot.Alike a.snapshot b.snapshot

/-- Two operations answer alike, with the same questions to the store and states that look the same,
and so do the operations of others in between. -/
structure Schedule.Outcome.Alike (a b : Schedule.Outcome) : Prop where
  answer : a.answer.Alike b.answer
  snapshot : Option.Rel Snapshot.Alike a.snapshot b.snapshot
  reads : a.reads = b.reads
  interludes : List.Forall₂ Interlude.Alike a.interludes b.interludes

/-- Two schedules have come to the same read with operations that answered alike. -/
structure Schedule.Alike (x y : Schedule) : Prop where
  reads : x.reads = y.reads
  done : List.Forall₂ Interlude.Alike x.done y.done

/-! ## Services -/

/-- Two services differ only in what their caches do not look at. -/
def Service.Alike (s t : Service) : Prop := ∃ c, s.cache.Alike c ∧ t = { s with cache := c }

/-- Two services are alike, and so are the states of their backends. -/
def Service.Beside {σ : Type} (R : σ → σ → Prop) (p q : Service × σ) : Prop :=
  p.1.Alike q.1 ∧ R p.2 q.2

theorem Service.Beside.cases {σ : Type} {R : σ → σ → Prop} {p q : Service × σ} (h : Beside R p q) :
    ∃ s c x y, p = (s, x) ∧ q = ({ s with cache := c }, y) ∧ s.cache.Alike c ∧ R x y := by
  obtain ⟨s, x⟩ := p
  obtain ⟨t, y⟩ := q
  obtain ⟨⟨c, hc, rfl⟩, hR⟩ := h
  exact ⟨s, c, x, y, rfl, rfl, hc, hR⟩

/-- A backend that answers alike services the same. -/
def Backend.Blind {σ : Type} (R : σ → σ → Prop) (b : Backend σ) : Prop :=
  ∀ (question : StoreRead) {p q : Service × σ}, Service.Beside R p q →
    Agree (Service.Beside R) (b question p) (b question q)

namespace Service.Alike

variable {s t : Service}

theorem cache (h : s.Alike t) : s.cache.Alike t.cache := by
  obtain ⟨c, hc, rfl⟩ := h
  exact hc

theorem store (h : s.Alike t) : t.store = s.store := by
  obtain ⟨c, -, rfl⟩ := h
  rfl

theorem now (h : s.Alike t) : t.now = s.now := by
  obtain ⟨c, -, rfl⟩ := h
  rfl

theorem handles (h : s.Alike t) : t.handles = s.handles := by
  obtain ⟨c, -, rfl⟩ := h
  rfl

theorem enabled? (h : s.Alike t) (handle : Nat) : t.enabled? handle = s.enabled? handle := by
  rw [Service.enabled?, h.handles, Service.enabled?]

theorem isUsable (h : s.Alike t) : t.cache.isUsable = s.cache.isUsable := by
  rw [Cache.isUsable, h.cache.config, Cache.isUsable]

theorem describe (h : s.Alike t) (enabled : Bool) : t.describe enabled = s.describe enabled := by
  unfold Service.describe
  rw [h.cache.config]

theorem withCache (h : s.Alike t) {c d : Cache} (hcache : c.Alike d) :
    { s with cache := c }.Alike { t with cache := d } := by
  obtain ⟨_, -, rfl⟩ := h
  exact ⟨d, hcache, rfl⟩

theorem withStore (h : s.Alike t) (store : Store) :
    { s with store := store }.Alike { t with store := store } := by
  obtain ⟨c, hc, rfl⟩ := h
  exact ⟨c, hc, rfl⟩

theorem withNow (h : s.Alike t) (now : Int) : { s with now := now }.Alike { t with now := now } := by
  obtain ⟨c, hc, rfl⟩ := h
  exact ⟨c, hc, rfl⟩

theorem withHandles (h : s.Alike t) (handles : List (Option Bool)) :
    { s with handles := handles }.Alike { t with handles := handles } := by
  obtain ⟨c, hc, rfl⟩ := h
  exact ⟨c, hc, rfl⟩

theorem setHandle (h : s.Alike t) (handle : Nat) (state : Option Bool) :
    (s.setHandle handle state).Alike (t.setHandle handle state) := by
  rw [Service.setHandle, Service.setHandle, h.handles]
  exact h.withHandles _

theorem countRead (h : s.Alike t) (question : StoreRead) :
    (s.countRead question).Alike (t.countRead question) := by
  cases question <;> exact h.withCache (h.cache.measure _ _)

theorem add (h : s.Alike t) (enabled : Bool) (writes : List ItemRecord) :
    Agree Alike (s.add enabled writes) (t.add enabled writes) := by
  rw [Service.add, Service.add, h.store]
  obtain ⟨e | _, store⟩ := s.store.append writes
  · exact ⟨rfl, h.withStore store⟩
  · have hstored := h.withStore store
    cases enabled with
    | false => exact ⟨rfl, hstored⟩
    | true =>
      refine ⟨rfl, hstored.withCache ?_⟩
      rw [h.now]
      exact h.cache.ingest s.now writes

theorem remove (h : s.Alike t) (enabled : Bool) (ids : List ItemId) :
    (s.remove enabled ids).Alike (t.remove enabled ids) := by
  cases enabled with
  | false => exact h
  | true => exact h.withCache (h.cache.removals ids)

theorem reset (h : s.Alike t) : s.reset.Alike t.reset := h.withCache (h.cache.reset.log _ _)

theorem destroy (h : s.Alike t) (handle : Nat) : (s.destroy handle).Alike (t.destroy handle) := by
  have hgone := h.setHandle handle none
  simp only [Service.destroy, hgone.isUsable]
  split
  · exact hgone.withCache (hgone.cache.stats.2.reset.log _ _)
  · exact hgone

theorem observe (h : s.Alike t) :
    Option.Rel Snapshot.Alike s.observe.1 t.observe.1 ∧ s.observe.2.Alike t.observe.2 := by
  rw [Service.observe, Service.observe, h.isUsable]
  split
  · have hstats := h.cache.stats
    exact ⟨.some ⟨hstats.1, hstats.2.budget, hstats.2.itemStats.symm⟩, h.withCache hstats.2⟩
  · exact ⟨.none, h⟩

theorem outside (h : s.Alike t) (o : Outside) :
    (s.outside o).1.Alike (t.outside o).1 ∧ (s.outside o).2.Alike (t.outside o).2 := by
  cases o with
  | insert item records =>
    refine ⟨.same _, ?_⟩
    simp only [Service.outside, h.store]
    exact h.withStore _
  | length item kind =>
    simp only [Service.outside, h.store]
    exact ⟨.same _, h⟩
  | failReads fail | failWrites fail =>
    refine ⟨.same _, ?_⟩
    simp only [Service.outside, h.store]
    exact h.withStore _
  | advance seconds =>
    simp only [Service.outside, h.now]
    exact ⟨.same _, h.withNow _⟩
  | setNow now => exact ⟨.same _, h.withNow now⟩
  | setLooks looks => exact ⟨.same _, h.withCache (h.cache.withClock looks)⟩
  | metrics => exact ⟨.metrics _ _, h⟩

end Service.Alike

/-! ## Requests and operations -/

namespace Backend.Blind

variable {σ : Type} {R : σ → σ → Prop} {b : Backend σ} {p q : Service × σ}

theorem perform {α : Type} (hb : b.Blind R) (r : Reading α) (h : Service.Beside R p q) :
    Agree (Service.Beside R) (Service.perform b r p) (Service.perform b r q) := by
  rw [Service.perform, Service.perform]
  induction r generalizing p q with
  | done a => exact ⟨rfl, h⟩
  | ask question next ih =>
    have hcounted : Service.Beside R (p.1.countRead question, p.2) (q.1.countRead question, q.2) :=
      ⟨h.1.countRead question, h.2⟩
    obtain ⟨answer, p₁, q₁, hp, hq, h₁⟩ := (hb question hcounted).cases
    simp only [Reading.perform, hp, hq]
    cases answer with
    | error e => exact ⟨rfl, h₁⟩
    | ok records => exact ih records h₁

theorem getPast (hb : b.Blind R) (request : Request) (h : Service.Beside R p q) :
    Agree (Service.Beside R) (Service.getPast b request p) (Service.getPast b request q) :=
  hb.perform request.direct h

theorem bypass (hb : b.Blind R) (request : Request) (held : Bool) (h : Service.Beside R p q) :
    Agree (Service.Beside R) (Service.bypass b request held p) (Service.bypass b request held q) := by
  obtain ⟨result, p₁, q₁, hp, hq, h₁⟩ := (hb.getPast request h).cases
  obtain ⟨s, c, x, y, rfl, rfl, hc, hxy⟩ := h₁.cases
  simp only [Service.bypass, hp, hq]
  exact ⟨rfl, ⟨_, hc.finishBypass s.now request held result, rfl⟩, hxy⟩

theorem getThrough (hb : b.Blind R) (request : Request) (h : Service.Beside R p q) :
    Agree (Service.Beside R) (Service.getThrough b request p) (Service.getThrough b request q) := by
  obtain ⟨s, c, x, y, rfl, rfl, hc, hxy⟩ := h.cases
  obtain ⟨next, c₁, d₁, hc₁, hd₁, hstarted⟩ := (hc.start s.now request).cases
  simp only [Service.getThrough, hc₁, hd₁]
  have h₁ : Service.Beside R ({ s with cache := c₁ }, x) ({ s with cache := d₁ }, y) :=
    ⟨⟨d₁, hstarted, rfl⟩, hxy⟩
  cases next with
  | answer records => exact ⟨rfl, h₁⟩
  | bypass held => exact hb.bypass request held h₁
  | fill fill =>
    obtain ⟨result, p₂, q₂, hp, hq, h₂⟩ := (hb.perform fill.reading h₁).cases
    obtain ⟨s₂, c₂, x₂, y₂, rfl, rfl, hc₂, hxy₂⟩ := h₂.cases
    obtain ⟨answer, c₃, d₃, hc₃, hd₃, hfinished⟩ :=
      (hc₂.finishFill s₂.now request fill result).cases
    simp only [hp, hq, hc₃, hd₃]
    have h₃ : Service.Beside R ({ s₂ with cache := c₃ }, x₂) ({ s₂ with cache := d₃ }, y₂) :=
      ⟨⟨d₃, hfinished, rfl⟩, hxy₂⟩
    cases answer with
    | some records => exact ⟨rfl, h₃⟩
    | none => exact hb.bypass request true h₃

theorem get (hb : b.Blind R) (enabled : Bool) (request : Request) (h : Service.Beside R p q) :
    Agree (Service.Beside R) (Service.get b enabled request p)
      (Service.get b enabled request q) := by
  cases enabled with
  | true => exact hb.getThrough request h
  | false => exact hb.getPast request h

theorem call (hb : b.Blind R) (enabled resets : Bool) (c : Call) (h : Service.Beside R p q) :
    (Service.call b enabled resets c p).1.Alike (Service.call b enabled resets c q).1 ∧
      Service.Beside R (Service.call b enabled resets c p).2
        (Service.call b enabled resets c q).2 := by
  cases c with
  | get request =>
    obtain ⟨result, p₁, q₁, hp, hq, h₁⟩ := (hb.get enabled request h).cases
    simp only [Service.call, hp, hq]
    exact ⟨.same _, h₁⟩
  | last item kind upTo =>
    obtain ⟨result, p₁, q₁, hp, hq, h₁⟩ := (hb.get enabled (.latest item kind upTo) h).cases
    simp only [Service.call, hp, hq]
    exact ⟨.same _, h₁⟩
  | add writes =>
    obtain ⟨result, s, t, hs, ht, h₁⟩ := (h.1.add enabled writes).cases
    simp only [Service.call, hs, ht]
    exact ⟨.same _, h₁, h.2⟩
  | remove ids => exact ⟨.same _, h.1.remove enabled ids, h.2⟩
  | reset =>
    cases resets with
    | true => exact ⟨.same _, h.1.reset, h.2⟩
    | false => exact ⟨.same _, h⟩
  | stats =>
    cases enabled with
    | true =>
      obtain ⟨stats, c, d, hp, hq, h₁⟩ := h.1.cache.stats.cases
      simp only [Service.call, if_pos, hp, hq]
      exact ⟨.same _, h.1.withCache h₁, h.2⟩
    | false => exact ⟨.same _, h⟩
  | memory =>
    cases enabled with
    | true => exact ⟨.memory _ _ h.1.cache.budget, h⟩
    | false => exact ⟨.same _, h⟩
  | items | top =>
    simp only [Service.call, h.1.cache.itemStats]
    exact ⟨.same _, h⟩

theorem batch (hb : b.Blind R) (enabled : Bool) (steps : List BatchStep)
    (h : Service.Beside R p q) :
    List.Forall₂ StepAlike (Service.batch b enabled steps p).1
        (Service.batch b enabled steps q).1 ∧
      Service.Beside R (Service.batch b enabled steps p).2
        (Service.batch b enabled steps q).2 := by
  induction steps generalizing p q with
  | nil => exact ⟨.nil, h⟩
  | cons step steps ih =>
    cases step with
    | call c =>
      obtain ⟨hreply, h₁⟩ := hb.call enabled enabled c h
      obtain ⟨hsnapshot, h₂⟩ := h₁.1.observe
      obtain ⟨hreplies, h₃⟩ := ih (p := (_, _)) (q := (_, _)) ⟨h₂, h₁.2⟩
      exact ⟨.cons ⟨hreply, hsnapshot⟩ hreplies, h₃⟩
    | outside o =>
      obtain ⟨hreply, h₁⟩ := h.1.outside o
      obtain ⟨hsnapshot, h₂⟩ := h₁.observe
      obtain ⟨hreplies, h₃⟩ := ih (p := (_, _)) (q := (_, _)) ⟨h₂, h.2⟩
      exact ⟨.cons ⟨hreply, hsnapshot⟩ hreplies, h₃⟩

/-- **An operation** answers alike services alike. -/
theorem execute {free held : Backend σ} (hfree : free.Blind R) (hheld : held.Blind R)
    (op : Operation) (h : Service.Beside R p q) :
    (Service.execute free held op p).1.Alike (Service.execute free held op q).1 ∧
      Service.Beside R (Service.execute free held op p).2
        (Service.execute free held op q).2 := by
  unfold Service.execute
  cases op with
  | outside o =>
    obtain ⟨hreply, h₁⟩ := h.1.outside o
    exact ⟨.reply _ _ hreply, h₁, h.2⟩
  | call handle c =>
    simp only [h.1.enabled?, h.1.isUsable]
    split
    · next enabled _ =>
      obtain ⟨hreply, h₁⟩ := hfree.call enabled p.1.cache.isUsable c h
      exact ⟨.reply _ _ hreply, h₁⟩
    · exact ⟨.reply _ _ (.same _), h⟩
  | batch handle steps =>
    simp only [h.1.enabled?]
    split
    · next enabled _ =>
      have hb : (if enabled then held else free).Blind R := by
        split
        · exact hheld
        · exact hfree
      obtain ⟨hreplies, h₁⟩ := hb.batch enabled steps h
      exact ⟨.batch _ _ hreplies, h₁⟩
    · exact ⟨.reply _ _ (.same _), h⟩
  | attach handle =>
    simp only [h.1.enabled?, h.1.handles]
    split
    · exact ⟨.reply _ _ (.same _), h.1.withHandles _, h.2⟩
    · exact ⟨.reply _ _ (.same _), h⟩
  | enable handle =>
    have hset := h.1.setHandle handle (some p.1.cache.isUsable)
    simp only [h.1.enabled?, Service.enable, h.1.isUsable, hset.enabled?]
    split
    · exact ⟨.reply _ _ (.same _), hset, h.2⟩
    · exact ⟨.reply _ _ (.same _), h⟩
  | disable handle =>
    have hset := h.1.setHandle handle (some false)
    simp only [h.1.enabled?, Service.disable, hset.enabled?]
    split
    · exact ⟨.reply _ _ (.same _), hset, h.2⟩
    · exact ⟨.reply _ _ (.same _), h⟩
  | isEnabled handle | describe handle | config handle =>
    simp only [h.1.enabled?, h.1.describe, h.1.cache.config]
    split
    · exact ⟨.reply _ _ (.same _), h⟩
    · exact ⟨.reply _ _ (.same _), h⟩
  | destroy handle =>
    simp only [h.1.enabled?]
    split
    · exact ⟨.reply _ _ (.same _), h.1.destroy handle, h.2⟩
    · exact ⟨.reply _ _ (.same _), h⟩

end Backend.Blind

theorem Service.blind_plain {σ : Type} (R : σ → σ → Prop) :
    Backend.Blind R (Service.plain : Backend σ) := by
  intro question p q h
  have hstore := h.1.store
  simp only [Service.plain, hstore]
  exact ⟨rfl, h.1.withStore _, h.2⟩

/-! ## Runs -/

namespace Schedule

abbrev Beside := Service.Beside Schedule.Alike

variable {p q : Service × Schedule}

theorem blind_uninterrupted : Backend.Blind Schedule.Alike uninterrupted := by
  intro question p q h
  have hcounted : Beside (p.1, { p.2 with reads := p.2.reads + 1 })
      (q.1, { q.2 with reads := q.2.reads + 1 }) :=
    ⟨h.1, congrArg (· + 1) h.2.reads, h.2.done⟩
  exact Service.blind_plain _ question hcounted

theorem interlude_alike {b : Backend Schedule} (hb : b.Blind Schedule.Alike) (read interruption : Nat)
    (position : Nat) (ops : List Operation) (h : Beside p q) :
    Beside (interlude b read interruption position ops p)
      (interlude b read interruption position ops q) := by
  induction ops generalizing position p q with
  | nil => exact h
  | cons op ops ih =>
    obtain ⟨hanswer, h₁⟩ := hb.execute blind_uninterrupted op h
    obtain ⟨hsnapshot, h₂⟩ := h₁.1.observe
    exact ih (position + 1) ⟨h₂, h₁.2.reads, .cons ⟨rfl, rfl, rfl, hanswer, hsnapshot⟩ h₁.2.done⟩

theorem interludes_alike {b : Backend Schedule} (hb : b.Blind Schedule.Alike) (read : Nat)
    (due : List (Nat × Interruption)) (h : Beside p q) :
    Beside (due.foldl (fun s (n, i) => interlude b read n 0 i.ops s) p)
      (due.foldl (fun s (n, i) => interlude b read n 0 i.ops s) q) := by
  induction due generalizing p q with
  | nil => exact h
  | cons i due ih => exact ih (interlude_alike hb read i.1 0 i.2.ops h)

theorem blind_backend (plan : List Interruption) (depth : Nat) :
    Backend.Blind Schedule.Alike (backend plan depth) := by
  induction depth with
  | zero => exact blind_uninterrupted
  | succ depth ih =>
    intro question p q h
    have hread : Beside (p.1, { p.2 with reads := p.2.reads + 1 })
        (q.1, { q.2 with reads := q.2.reads + 1 }) :=
      ⟨h.1, congrArg (· + 1) h.2.reads, h.2.done⟩
    simp only [backend, h.2.reads] at hread ⊢
    have hbefore := interludes_alike ih (q.2.reads + 1) (due plan (q.2.reads + 1) .before) hread
    have hplain := Service.blind_plain Schedule.Alike question hbefore
    exact ⟨hplain.1, interludes_alike ih _ (due plan (q.2.reads + 1) .after) hplain.2⟩

theorem step_alike (plan : List Interruption) (op : Operation) (h : Beside p q) :
    (step plan op p).1.Alike (step plan op q).1 ∧ Beside (step plan op p).2 (step plan op q).2 := by
  obtain ⟨hanswer, h₁⟩ :=
    (blind_backend plan plan.length).execute blind_uninterrupted op h
  obtain ⟨hsnapshot, h₂⟩ := h₁.1.observe
  obtain ⟨c, hc, ht⟩ := h₂
  simp only [step, ht]
  exact ⟨⟨hanswer, hsnapshot, rfl, List.rel_reverse h₁.2.done⟩, ⟨_, hc.told _ _, rfl⟩, h₁.2.reads, .nil⟩

/-- **Runs** from alike services look the same, whatever others do in between. -/
theorem run_alike (plan : List Interruption) (ops : List Operation) (h : Beside p q) :
    List.Forall₂ Outcome.Alike (run plan ops p) (run plan ops q) := by
  induction ops generalizing p q with
  | nil => exact .nil
  | cons op ops ih =>
    obtain ⟨houtcome, h₁⟩ := step_alike plan op h
    exact .cons houtcome (ih h₁)

end Schedule

end HistoryCache
