import HistoryCache.Proofs.Interference
import Mathlib

/-!
# The cache cannot be told from the store

As long as operations are done one after the other, a request that succeeds on a handle that is on is
answered with what a handle that is off gets from the store at that moment, and each cached item has
the store's records of its kind from its oldest second on (`transparent_of_run`).  Nothing is missing
from the seconds that it covers, whatever was refused, trimmed, evicted or dropped on the way, and
whichever reads failed (`Service.faltering`).
-/

namespace HistoryCache

/-- Asks the store and does nothing else, but reads fail as a list says, one after the other, and as the
store is set when the list is used up. -/
def Service.faltering : Backend (List Bool) := fun question (s, fails) =>
  let fail := fails.headD s.store.readsFail
  plain question ({ s with store := { s.store with readsFail := fail } }, fails.tail)

/-- Operations one after the other, with nothing of others in between. -/
def Service.run (s : Service × List Bool) (ops : List Operation) : Service × List Bool :=
  ops.foldl (fun s op => (execute faltering faltering op s).2) s

/-- Whether the rules allow operations one after the other. -/
def Rules.PermitsAll (rules : Rules) : Service × List Bool → List Operation → Prop
  | _, [] => True
  | s, op :: ops => rules.Permits s.1 op ∧
      PermitsAll rules (Service.execute Service.faltering Service.faltering op s).2 ops

theorem keeps_plain {σ : Type} : Keeps Plain Service.Coherent (Service.Advances written)
    (fun _ : σ => True) Service.plain :=
  follows_coherent.preserved.keeps follows_coherent.preserved.of_eq admits_plain

theorem keeps_faltering : Keeps Plain Service.Coherent (Service.Advances written)
    (fun _ => True) Service.faltering := by
  intro question s fails hs _
  -- a switch of the store is neither cached nor stored
  obtain ⟨ht, hadvances⟩ := rely_coherent.same (s := s)
    (t := { s with store := { s.store with readsFail := fails.headD s.store.readsFail } })
    rfl rfl rfl hs
  obtain ⟨t, u, hst, hkept⟩ := keeps_plain question _ fails.tail ht trivial
  exact ⟨t, u, rely_coherent.trans hadvances hst, hkept⟩

/-! ## Answers -/

/-- The contents of the store stay the same while a backend answers. -/
def Backend.Still {σ : Type} (b : Backend σ) : Prop :=
  ∀ question s x, (b question (s, x)).2.1.store.series = s.store.series

namespace Service

variable {σ : Type} {b : Backend σ} {q : Request} {s t : Service} {x y : σ} {records : List Record}

/-- Reading leaves the contents of the store alone. -/
theorem series_perform {α : Type} (hb : b.Still) (r : Reading α) (s : Service × σ) :
    (perform b r s).2.1.store.series = s.1.store.series := by
  rw [perform]
  induction r generalizing s with
  | done a => rfl
  | ask question next ih =>
    rw [Reading.perform]
    simp only []
    have hasked : (b question (s.1.countRead question, s.2)).2.1.store.series =
        s.1.store.series := by
      rw [hb]
      cases question <;> rfl
    generalize b question (s.1.countRead question, s.2) = asked at hasked
    obtain ⟨answer, t, y⟩ := asked
    cases answer with
    | error e => exact hasked
    | ok records => exact (ih records (t, y)).trans hasked

theorem series_bypass (hb : b.Still) (q : Request) (held : Bool) (s : Service × σ) :
    (bypass b q held s).2.1.store.series = s.1.store.series :=
  series_perform hb q.direct s

theorem series_getThrough (hb : b.Still) (q : Request) (s : Service × σ) :
    (getThrough b q s).2.1.store.series = s.1.store.series := by
  rw [getThrough]
  simp only []
  generalize s.1.cache.start s.1.now q = started
  obtain ⟨next, c⟩ := started
  cases next with
  | answer records => rfl
  | bypass held => exact series_bypass hb q held ({ s.1 with cache := c }, s.2)
  | fill fill =>
    have hread := series_perform hb fill.reading ({ s.1 with cache := c }, s.2)
    simp only []
    generalize perform b fill.reading ({ s.1 with cache := c }, s.2) = performed at hread
    obtain ⟨result, t, y⟩ := performed
    simp only []
    generalize t.cache.finishFill t.now q fill result = finished
    obtain ⟨answer, c'⟩ := finished
    cases answer with
    | some records => exact hread
    | none => exact (series_bypass hb q true ({ t with cache := c' }, y)).trans hread

/-- A reading succeeds unless reads fail. -/
theorem perform_ok {α : Type} (r : Reading α) (hreads : s.store.readsFail = false) :
    ∃ a t, perform plain r (s, x) = (.ok a, t) := by
  rw [perform]
  induction r generalizing s x with
  | done a => exact ⟨a, _, rfl⟩
  | ask question next ih =>
    have hasked : ∃ records t, plain question (s.countRead question, x) = (.ok records, t, x) ∧
        t.store.readsFail = false := by
      have hread : ∀ t : Service, t.store.readsFail = false → ∃ records u,
          plain question (t, x) = (.ok records, u, x) ∧ u.store.readsFail = false := by
        intro t ht
        rw [plain, Store.read, ht]
        exact ⟨_, _, rfl, rfl⟩
      cases question <;> exact hread _ hreads
    obtain ⟨records, t, heq, ht⟩ := hasked
    rw [Reading.perform]
    simp only [heq]
    exact ih records ht

/-- **An answer** is what is wanted of the records of the store, on a handle that is on or off. -/
theorem Coherent.get_eq (hb : b.Still)
    (hkeeps : Keeps Plain Coherent (Advances written) (fun _ => True) b) (h : s.Coherent) (hq : q.Valid)
    {enabled : Bool} (hget : get b enabled q (s, x) = (.ok records, t, y)) :
    records = q.wanted (s.store.recordsOf q.item q.kind) := by
  have hserved : t.store.series = s.store.series ∧ ∃ all, records = q.wanted all ∧ Rising all ∧
      (∀ r ∈ all, r ∈ t.store.recordsOf q.item q.kind) ∧
      q.Serves (· ∈ s.store.recordsOf q.item q.kind) all := by
    cases enabled with
    | true =>
      obtain ⟨hgot, -⟩ := got_coherent hkeeps hq h trivial hget
      have hseries := series_getThrough hb q (s, x)
      rw [show getThrough b q (s, x) = (.ok records, t, y) from hget] at hseries
      exact ⟨hseries, Coherent.serves hq h hgot⟩
    | false =>
      obtain ⟨hread, -⟩ := hkeeps.perform rely_coherent q.direct h trivial hget
      have hseries := series_perform hb q.direct (s, x)
      rw [show perform b q.direct (s, x) = (.ok records, t, y) from hget] at hseries
      exact ⟨hseries, Coherent.serves_direct hq hread⟩
  obtain ⟨hseries, all, rfl, hrising, hmem, hserves⟩ := hserved
  refine hserves.wanted_eq hrising (s.store.rising_recordsOf _ _) fun r hr => ?_
  rw [← Store.recordsOf_congr hseries]
  exact hmem r hr

end Service

/-! ## Runs -/

/-- A service that is coherent and that nobody is busy with. -/
structure Service.AtRest (s : Service) : Prop extends s.Coherent where
  rest : ∀ id, s.cache.pinsOf id = 0

/-- No record that is fresh in any state is written. -/
theorem Store.not_allFresh {w : ItemRecord} {writes : List ItemRecord} (hw : w ∈ writes) (s : Store) :
    ¬ (s.put w).AllFresh writes := by
  intro h
  refine h.fresh w hw w.record ?_ rfl rfl
  rw [Store.Has, Store.mem_recordsOf_put, if_pos ⟨rfl, rfl⟩]
  exact Or.inl rfl

namespace Service.AtRest

variable {s : Service}

/-- With nobody holding an item, the rules for writes are kept. -/
theorem permits (h : s.AtRest) {op : Operation} (hop : Rules.orderly.Permits s op) :
    Rules.through.Permits s op := by
  have hsorted : s.cache.Sound fun _ _ _ => True := h.sound.mono fun _ => trivial
  cases op with
  | outside o => exact hop
  | call handle c =>
    intro enabled henabled
    have horderly := hop enabled henabled
    refine ⟨horderly, fun writes hc _ => ?_⟩
    exact h.vouched.noneStray hsorted h.rest h.regular (horderly.2 writes hc).2 _
  | batch handle steps =>
    intro enabled henabled t step hstep
    have hstep' := hop enabled henabled t step hstep
    cases step with
    | outside o => exact hstep'
    | call c =>
      refine ⟨hstep', fun writes hc _ => ?_⟩
      -- what may be written in any state is nothing
      cases writes with
      | nil => trivial
      | cons w writes =>
        obtain ⟨-, hnone⟩ := (hop enabled henabled { t with store := t.store.put w } (.call c) hstep).2
          _ hc
        exact absurd hnone (Store.not_allFresh List.mem_cons_self t.store)
  | attach | enable | disable | isEnabled | describe | config | destroy => trivial

theorem execute (h : s.AtRest) {op : Operation} (hop : Rules.orderly.Permits s op)
    (fails : List Bool) :
    (Service.execute Service.faltering Service.faltering op (s, fails)).2.1.AtRest := by
  obtain ⟨hcoherent, hadvances, -⟩ := follows_coherent.preserved.executes (x := fails)
    keeps_faltering keeps_faltering (h.permits hop) h.toCoherent trivial
  exact ⟨hcoherent, fun id => (hadvances.pinsOf id).trans (h.rest id)⟩

theorem run {s : Service × List Bool} (h : s.1.AtRest) {ops : List Operation}
    (hops : Rules.orderly.PermitsAll s ops) : (Service.run s ops).1.AtRest := by
  induction ops generalizing s with
  | nil => exact h
  | cons op ops ih => exact ih (h.execute hops.1 s.2) hops.2

/-- A cached item mirrors the store, as nobody holds it. -/
theorem mirrors (h : s.AtRest) {id : ItemId} {item : Item} (hid : s.cache.items[id]? = some item) :
    item.Mirrors (s.store.recordsOf id item.kind) := by
  refine (h.toCoherent.mirrors hid).resolve_right fun ⟨_, hpins⟩ => ?_
  rw [h.rest] at hpins
  exact Nat.lt_irrefl 0 hpins

end Service.AtRest

/-- With the records of a store in order, an item that mirrors them has those from its oldest second
on. -/
theorem Item.Mirrors.records_eq {item : Item} {stored : List Record} (h : item.Mirrors stored)
    (hrising : Rising item.history.records) (hstored : Rising stored) {oldest : Record}
    (holdest : item.history.records.head? = some oldest) :
    item.history.records = stored.filter fun r => decide (oldest.sec ≤ r.sec) := by
  refine hrising.eq_of_mem_iff (hstored.filter _) fun r => ?_
  rw [List.mem_filter, decide_eq_true_iff]
  refine ⟨fun hr => ⟨h.sound r hr, ?_⟩, fun hr => ?_⟩
  · exact Record.sec_le_of_le (hrising.inOrder.head_le holdest r hr)
  · exact h.coherent.floor oldest (List.mem_of_mem_head? holdest) r hr.1 hr.2

end HistoryCache
