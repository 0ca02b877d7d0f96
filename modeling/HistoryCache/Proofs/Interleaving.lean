import HistoryCache.Service
import Mathlib.Logic.Relation

/-!
# Operations that interleave

While a request reads the store, others may do complete operations, and those read the store as
well.  `Meanwhile n s t` says that operations of others lead from `s` to `t`, where requests are
inside each other to a depth of `n`; with `n = 0` nobody does anything.  What is left open is how the
store answers a question (`Answering`), and which operations are done in which state.

A service is `Reachable` after an operation that was done with others in between, and also at any
question that such an operation puts to the store, with the operation still in flight.

* `Preserved.reachable`: what every operation preserves, as long as those who answer its questions
  preserve it, holds of every reachable service.
* `Keeps.perform`: what a reading brings about, by what its answers may be (`Reading.Yields`).
-/

namespace HistoryCache

namespace Reading

variable {α β : Type}

/-- Whatever the answers are, as long as they are as `A` says, the result is as `P` says. -/
def Yields (A : StoreRead → List Record → Prop) (P : α → Prop) : Reading α → Prop
  | done a => P a
  | ask question next => ∀ records, A question records → Yields A P (next records)

variable {A B : StoreRead → List Record → Prop} {P Q : α → Prop}

theorem Yields.mono {r : Reading α} (hA : ∀ question records, B question records → A question records)
    (hP : ∀ a, P a → Q a) (h : r.Yields A P) : r.Yields B Q := by
  induction r with
  | done a => exact hP a h
  | ask question next ih => exact fun records hB => ih records (h records (hA question records hB))

theorem Yields.bind {r : Reading α} {f : α → Reading β} {Q : β → Prop}
    (h : r.Yields A fun a => (f a).Yields A Q) : (r >>= f).Yields A Q := by
  induction r with
  | done a => exact h
  | ask question next ih => exact fun records hA => ih records (h records hA)

theorem yields_read {question : StoreRead} {P : List Record → Prop}
    (h : ∀ records, A question records → P records) : (Reading.read question).Yields A P := h

end Reading

/-- What a store may do when a question is put to it: the answer, and the service after it. -/
abbrev Answering := StoreRead → Service → Except StoreFailure (List Record) → Service → Prop

/-- A backend lets others do what `M` allows before the store answers, and again after it. -/
def Admits {σ : Type} (answering : Answering) (M : Service → Service → Prop) (b : Backend σ) : Prop :=
  ∀ question s x, ∃ t u, M s t ∧ answering question t (b question (s, x)).1 u ∧
    M u (b question (s, x)).2.1

/-- An operation leads from `s` to `t`, with others doing what `M` allows while it reads the store. -/
def Does (answering : Answering) (permits : Service → Operation → Prop)
    (M : Service → Service → Prop) (s t : Service) : Prop :=
  ∃ (σ : Type) (free held : Backend σ) (op : Operation) (x : σ), Admits answering M free ∧
    Admits answering Eq held ∧ permits s op ∧ (Service.execute free held op (s, x)).2.1 = t

/-- Operations of others lead from one service to another, with requests inside each other to some
depth. -/
def Meanwhile (answering : Answering) (permits : Service → Operation → Prop) :
    (depth : Nat) → Service → Service → Prop
  | 0 => Eq
  | depth + 1 => Relation.ReflTransGen (Does answering permits (Meanwhile answering permits depth))

/-- Notes the services in which questions are put. -/
def watched {σ : Type} (b : Backend σ) : Backend (σ × List Service) :=
  fun question (s, x, seen) =>
    let (answer, t, y) := b question (s, x)
    (answer, t, y, s :: seen)

/-- The services that operations lead to, those with an operation in flight among them. -/
inductive Reachable (answering : Answering) (permits : Service → Operation → Prop)
    (initial : Service → Prop) : Service → Prop
  | initial (s : Service) (hs : initial s) : Reachable answering permits initial s
  | after (s t : Service) (depth : Nat) (hs : Reachable answering permits initial s)
      (hdoes : Does answering permits (Meanwhile answering permits depth) s t) :
      Reachable answering permits initial t
  | during (s t : Service) (depth : Nat) (hs : Reachable answering permits initial s)
      (σ : Type) (free held : Backend σ) (op : Operation) (x : σ)
      (hfree : Admits answering (Meanwhile answering permits depth) free)
      (hheld : Admits answering Eq held) (hop : permits s op)
      (hseen : t ∈ (Service.execute (watched free) (watched held) op (s, x, [])).2.2.2) :
      Reachable answering permits initial t

/-! ## Invariants -/

section Invariants

variable {σ : Type} {answering : Answering} {permits : Service → Operation → Prop}
  {I : Service → Prop} {R : Service → Service → Prop} {K : σ → Prop}

/-- Whoever answers a question keeps `I` and leads from one service to another as `R` says. -/
def Keeps (answering : Answering) (I : Service → Prop) (R : Service → Service → Prop)
    (K : σ → Prop) (b : Backend σ) : Prop :=
  ∀ question s x, I s → K x → ∃ t u, R s t ∧ I t ∧ answering question t (b question (s, x)).1 u ∧
    R u (b question (s, x)).2.1 ∧ I (b question (s, x)).2.1 ∧ K (b question (s, x)).2.2

/-- `I` and `R` look at the cached items and the contents of the store only, and the store keeps them
when it answers. -/
structure Rely (answering : Answering) (I : Service → Prop) (R : Service → Service → Prop) :
    Prop where
  refl : ∀ s, R s s
  trans : ∀ {s t u}, R s t → R t u → R s u
  same : ∀ {s t : Service}, t.cache.items = s.cache.items → t.store.series = s.store.series →
    t.store.arrange = s.store.arrange → I s → I t ∧ R s t
  answers : ∀ {question s answer t}, answering question s answer t → I s → I t ∧ R s t

/-- Operations preserve `I` and lead from one service to another as `R` says, if those who answer
their questions do. -/
structure Preserved (answering : Answering) (permits : Service → Operation → Prop)
    (I : Service → Prop) (R : Service → Service → Prop) : Prop extends Rely answering I R where
  executes : ∀ {σ : Type} {K : σ → Prop} {free held : Backend σ} {op : Operation} {s : Service}
    {x : σ}, Keeps answering I R K free → Keeps answering I R K held → permits s op → I s → K x →
      I (Service.execute free held op (s, x)).2.1 ∧
        R s (Service.execute free held op (s, x)).2.1 ∧ K (Service.execute free held op (s, x)).2.2

namespace Preserved

theorem keeps (h : Preserved answering permits I R) {M : Service → Service → Prop}
    (hM : ∀ s t, M s t → I s → I t ∧ R s t) {b : Backend σ} (hb : Admits answering M b) :
    Keeps answering I R (fun _ => True) b := by
  intro question s x hs _
  obtain ⟨t, u, hst, hanswer, hu⟩ := hb question s x
  obtain ⟨ht, hR⟩ := hM s t hst hs
  obtain ⟨hIu, -⟩ := h.answers hanswer ht
  obtain ⟨hI, hR'⟩ := hM u _ hu hIu
  exact ⟨t, u, hR, ht, hanswer, hR', hI, trivial⟩

theorem of_eq (h : Preserved answering permits I R) (s t : Service) (hst : s = t) (hs : I s) :
    I t ∧ R s t := by
  subst hst
  exact ⟨hs, h.refl s⟩

theorem meanwhile (h : Preserved answering permits I R) (depth : Nat) :
    ∀ s t, Meanwhile answering permits depth s t → I s → I t ∧ R s t := by
  induction depth with
  | zero => exact h.of_eq
  | succ depth ih =>
    intro s t hst hs
    induction hst with
    | refl => exact ⟨hs, h.refl s⟩
    | tail _ hdoes ihs =>
      obtain ⟨hI, hR⟩ := ihs
      obtain ⟨σ, free, held, op, x, hfree, hheld, hop, rfl⟩ := hdoes
      obtain ⟨hI', hR', -⟩ :=
        h.executes (h.keeps ih hfree) (h.keeps h.of_eq hheld) hop hI trivial
      exact ⟨hI', h.trans hR hR'⟩

theorem keeps_watched (h : Preserved answering permits I R) {M : Service → Service → Prop}
    (hM : ∀ s t, M s t → I s → I t ∧ R s t) {b : Backend σ} (hb : Admits answering M b) :
    Keeps answering I R (fun x : σ × List Service => ∀ s ∈ x.2, I s) (watched b) := by
  intro question s ⟨x, seen⟩ hs hseen
  obtain ⟨t, u, hR, ht, hanswer, hR', hI, -⟩ := h.keeps hM hb question s x hs trivial
  refine ⟨t, u, hR, ht, hanswer, hR', hI, fun s' hs' => ?_⟩
  rcases List.mem_cons.1 hs' with rfl | hs'
  · exact hs
  · exact hseen s' hs'

/-- **An invariant** of the operations holds of every reachable service. -/
theorem reachable (h : Preserved answering permits I R) {initial : Service → Prop}
    (hinitial : ∀ s, initial s → I s) {s : Service} (hs : Reachable answering permits initial s) :
    I s := by
  induction hs with
  | initial s hs => exact hinitial s hs
  | after s t depth _ hdoes ih =>
    obtain ⟨σ, free, held, op, x, hfree, hheld, hop, rfl⟩ := hdoes
    exact (h.executes (h.keeps (h.meanwhile depth) hfree) (h.keeps h.of_eq hheld) hop ih
      trivial).1
  | during s t depth _ σ free held op x hfree hheld hop hseen ih =>
    exact (h.executes (h.keeps_watched (h.meanwhile depth) hfree) (h.keeps_watched h.of_eq hheld)
      hop ih (x := (x, [])) (by simp)).2.2 t hseen

end Preserved

/-- A question was answered with some records between two services. -/
def Asked (answering : Answering) (I : Service → Prop) (R : Service → Service → Prop)
    (s s' : Service) (question : StoreRead) (records : List Record) : Prop :=
  ∃ t u, R s t ∧ I t ∧ answering question t (.ok records) u ∧ R u s'

/-- Between two services a reading was performed; what its answers make of its result is so. -/
structure Reading.Performed {α : Type} (answering : Answering) (I : Service → Prop)
    (R : Service → Service → Prop) (r : Reading α) (s : Service) (result : Except StoreFailure α)
    (t : Service) : Prop where
  before : I s
  after : I t
  leads : R s t
  yields : ∀ a, result = .ok a → ∀ P, r.Yields (Asked answering I R s t) P → P a

/-- **A reading** keeps what those who answer keep. -/
theorem Keeps.perform {α : Type} (hrely : Rely answering I R) {b : Backend σ}
    (hb : Keeps answering I R K b) (r : Reading α) {s s' : Service} {x x' : σ}
    {result : Except StoreFailure α} (hs : I s) (hx : K x)
    (h : Service.perform b r (s, x) = (result, s', x')) :
    r.Performed answering I R s result s' ∧ K x' := by
  rw [Service.perform] at h
  induction r generalizing s x with
  | done a =>
    cases h
    exact ⟨⟨hs, hs, hrely.refl _, fun _ ha P hP => by cases ha; exact hP⟩, hx⟩
  | ask question next ih =>
    obtain ⟨hs₁, hR₁⟩ : I (s.countRead question) ∧ R s (s.countRead question) := by
      cases question <;> exact hrely.same rfl rfl rfl hs
    obtain ⟨t, u, hR₂, ht, hanswer, hR₃, hs₂, hx₂⟩ := hb question (s.countRead question) x hs₁ hx
    have hR := hrely.trans hR₁ (hrely.trans hR₂ (hrely.trans (hrely.answers hanswer ht).2 hR₃))
    rw [Reading.perform] at h
    simp only [] at h
    generalize hb : b question (s.countRead question, x) = answered at h hanswer hR₃ hs₂ hx₂ hR
    obtain ⟨answer, s₂, x₂⟩ := answered
    cases answer with
    | error e =>
      cases h
      exact ⟨⟨hs, hs₂, hR, fun _ ha => by cases ha⟩, hx₂⟩
    | ok records =>
      obtain ⟨⟨-, hI, hR', hyields⟩, hK⟩ := ih records hs₂ hx₂ h
      refine ⟨⟨hs, hI, hrely.trans hR hR', fun a ha P hP => hyields a ha P ?_⟩, hK⟩
      have hasked : Asked answering I R s s' question records :=
        ⟨t, u, hrely.trans hR₁ hR₂, ht, hanswer, hrely.trans hR₃ hR'⟩
      refine (hP records hasked).mono (fun q rs hA => ?_) fun _ h => h
      obtain ⟨t', u', h1, h2, h3, h4⟩ := hA
      exact ⟨t', u', hrely.trans hR h1, h2, h3, h4⟩

end Invariants

end HistoryCache
