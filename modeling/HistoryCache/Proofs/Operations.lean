import HistoryCache.Proofs.Requests

/-!
# What operations preserve

Most operations leave the cached items and the contents of the store alone.  `Follows` lists those
that do not, and `Follows.preserved` says that what these preserve is preserved by all operations,
whoever interferes.

`Rules` tell which operations may be done; without such rules (`Rules.free`) all of them may.
-/

namespace HistoryCache

/-- A new service has nothing in its cache. -/
theorem Service.eq_of_new {config : Config} {now : Int} {s : Service}
    (h : Service.new config now = .ok s) :
    s = { cache := Cache.new config, now := now, handles := [some false] } := by
  rw [Service.new] at h
  cases hvalid : config.validate with
  | error e =>
    rw [hvalid] at h
    cases h
  | ok =>
    rw [hvalid] at h
    cases h
    rfl

/-- A new service at second 1000. -/
def newService : Service := { cache := Cache.new {}, now := 1000, handles := [some false] }

theorem new_newService : Service.new {} 1000 = .ok newService := rfl

/-- The request that a call makes, if it makes one. -/
def Call.request? : Call → Option Request
  | .get q => some q
  | .last item kind upTo => some (.latest item kind upTo)
  | _ => none

/-- Which calls may be made on a handle that is on or off, and which operations on the store and the
clock may be done. -/
structure Rules where
  call : Service → Bool → Call → Prop
  outside : Service → Outside → Prop

namespace Rules

/-- No rules. -/
def free : Rules where
  call _ _ _ := True
  outside _ _ := True

/-- Whether the rules allow an operation.  The steps of a batch have to be allowed in any state. -/
def Permits (rules : Rules) (s : Service) : Operation → Prop
  | .outside o => rules.outside s o
  | .call handle c => ∀ enabled, s.enabled? handle = some enabled → rules.call s enabled c
  | .batch handle steps => ∀ enabled, s.enabled? handle = some enabled → ∀ t, ∀ step ∈ steps,
    match step with
    | .call c => rules.call t enabled c
    | .outside o => rules.outside t o
  | _ => True

end Rules

/-- What the steps that change cached items or the store have to preserve. -/
structure Follows (answering : Answering) (rules : Rules) (I : Service → Prop)
    (R : Service → Service → Prop) : Prop extends Rely answering I R where
  gets : ∀ {σ : Type} {K : σ → Prop} {b : Backend σ} {c : Call} {q : Request} {s : Service} {x : σ},
    Keeps answering I R K b → c.request? = some q → rules.call s true c → I s → K x →
      I (Service.getThrough b q (s, x)).2.1 ∧ R s (Service.getThrough b q (s, x)).2.1 ∧
        K (Service.getThrough b q (s, x)).2.2
  adds : ∀ {s : Service} {enabled : Bool} {writes : List ItemRecord},
    rules.call s enabled (.add writes) → I s →
      I (s.add enabled writes).2 ∧ R s (s.add enabled writes).2
  removes : ∀ {s : Service} (items : List ItemId), I s →
    I { s with cache := items.foldl Cache.requestRemoval s.cache } ∧
      R s { s with cache := items.foldl Cache.requestRemoval s.cache }
  resets : ∀ {s : Service}, I s →
    I { s with cache := s.cache.reset } ∧ R s { s with cache := s.cache.reset }
  inserts : ∀ {s : Service} {item : ItemId} {records : List Record},
    rules.outside s (.insert item records) → I s →
      I { s with store := s.store.insert item records } ∧
        R s { s with store := s.store.insert item records }

namespace Follows

variable {answering : Answering} {rules : Rules} {I : Service → Prop} {R : Service → Service → Prop}
  {σ : Type} {K : σ → Prop} {b : Backend σ} {s : Service} {x : σ}

/-- What is to be shown of the service and the state after an operation. -/
abbrev Fine (I : Service → Prop) (R : Service → Service → Prop) (K : σ → Prop) (s : Service)
    (t : Service × σ) : Prop :=
  I t.1 ∧ R s t.1 ∧ K t.2

theorem fine_trans (h : Follows answering rules I R) {t : Service} {u : Service × σ}
    (hst : R s t) (hfine : Fine I R K t u) : Fine I R K s u :=
  ⟨hfine.1, h.trans hst hfine.2.1, hfine.2.2⟩

theorem get (h : Follows answering rules I R) (hb : Keeps answering I R K b) {enabled : Bool}
    {c : Call} {q : Request} (hq : c.request? = some q) (hc : rules.call s enabled c) (hs : I s)
    (hx : K x) : Fine I R K s (Service.get b enabled q (s, x)).2 := by
  cases enabled with
  | true => exact h.gets hb hq hc hs hx
  | false =>
    obtain ⟨hread, hK⟩ := hb.perform h.toRely q.direct hs hx rfl
    exact ⟨hread.after, hread.leads, hK⟩

/-- A reset, and what leaves items and store alone before and after it. -/
theorem reset_of (h : Follows answering rules I R) {t u : Service}
    (htitems : t.cache.items = s.cache.items) (htstore : t.store = s.store)
    (huitems : u.cache.items = t.cache.reset.items) (hustore : u.store = t.store) (hs : I s) :
    I u ∧ R s u := by
  obtain ⟨h1, hR1⟩ := h.same htitems (congrArg _ htstore) (congrArg _ htstore) hs
  obtain ⟨h2, hR2⟩ := h.resets h1
  obtain ⟨h3, hR3⟩ :=
    h.same (s := { t with cache := t.cache.reset }) huitems (congrArg _ hustore)
      (congrArg _ hustore) h2
  exact ⟨h3, h.trans hR1 (h.trans hR2 hR3)⟩

theorem reset (h : Follows answering rules I R) (hs : I s) : I s.reset ∧ R s s.reset :=
  h.reset_of rfl rfl rfl rfl hs

theorem destroy (h : Follows answering rules I R) (hs : I s) (handle : Nat) :
    I (s.destroy handle) ∧ R s (s.destroy handle) := by
  rw [Service.destroy]
  split
  · exact h.reset_of (t := { s with cache := s.cache.stats.2 }) rfl rfl rfl rfl hs
  · exact h.same rfl rfl rfl hs

theorem outside (h : Follows answering rules I R) {o : Outside} (ho : rules.outside s o)
    (hs : I s) : I (s.outside o).2 ∧ R s (s.outside o).2 := by
  cases o with
  | insert item records => exact h.inserts ho hs
  | length | failReads | failWrites | advance | setNow | setLooks | metrics =>
    exact h.same rfl rfl rfl hs

theorem call (h : Follows answering rules I R) (hb : Keeps answering I R K b)
    {enabled resets : Bool} {c : Call} (hc : rules.call s enabled c) (hs : I s) (hx : K x) :
    Fine I R K s (Service.call b enabled resets c (s, x)).2 := by
  have hsame : ∀ t : Service, t.cache.items = s.cache.items → t.store = s.store →
      Fine I R K s (t, x) := fun t hitems hstore =>
    ⟨(h.same hitems (congrArg _ hstore) (congrArg _ hstore) hs).1,
      (h.same hitems (congrArg _ hstore) (congrArg _ hstore) hs).2, hx⟩
  cases c with
  | get q => exact h.get hb rfl hc hs hx
  | last item kind upTo => exact h.get hb rfl hc hs hx
  | add writes =>
    obtain ⟨hI, hR⟩ := h.adds hc hs
    exact ⟨hI, hR, hx⟩
  | remove items =>
    cases enabled with
    | true =>
      obtain ⟨hI, hR⟩ := h.removes items hs
      exact ⟨hI, hR, hx⟩
    | false => exact hsame s rfl rfl
  | reset =>
    cases resets with
    | true =>
      obtain ⟨hI, hR⟩ := h.reset hs
      exact ⟨hI, hR, hx⟩
    | false => exact hsame s rfl rfl
  | stats => cases enabled <;> exact hsame _ rfl rfl
  | memory | items | top => exact hsame s rfl rfl

theorem batch (h : Follows answering rules I R) (hb : Keeps answering I R K b) {enabled : Bool}
    {steps : List BatchStep}
    (hsteps : ∀ t, ∀ step ∈ steps,
      match step with
      | .call c => rules.call t enabled c
      | .outside o => rules.outside t o)
    (hs : I s) (hx : K x) : Fine I R K s (Service.batch b enabled steps (s, x)).2 := by
  induction steps generalizing s x with
  | nil => exact ⟨hs, h.refl s, hx⟩
  | cons step steps ih =>
    have hrest : ∀ (t : Service) (y : σ), Fine I R K s (t, y) →
        Fine I R K s (Service.batch b enabled steps (t.observe.2, y)).2 := by
      intro t y ⟨ht, hR, hy⟩
      obtain ⟨ht', hR'⟩ : I t.observe.2 ∧ R t t.observe.2 := by
        rw [Service.observe]
        split <;> exact h.same rfl rfl rfl ht
      exact h.fine_trans (h.trans hR hR')
        (ih (fun u step' hstep => hsteps u step' (List.mem_cons_of_mem step hstep)) ht' hy)
    have hstep := hsteps s step List.mem_cons_self
    cases step with
    | call c => exact hrest _ _ (h.call hb hstep hs hx)
    | outside o =>
      obtain ⟨hI, hR⟩ := h.outside hstep hs
      exact hrest _ _ ⟨hI, hR, hx⟩

/-- **All operations** preserve what those preserve that change cached items or the store. -/
theorem preserved (h : Follows answering rules I R) :
    Preserved answering rules.Permits I R where
  toRely := h.toRely
  executes {σ K free held op s x} hfree hheld hop hs hx := by
    have hsame : ∀ t : Service, t.cache.items = s.cache.items → t.store = s.store →
        Fine I R K s (t, x) := fun t hitems hstore =>
      ⟨(h.same hitems (congrArg _ hstore) (congrArg _ hstore) hs).1,
        (h.same hitems (congrArg _ hstore) (congrArg _ hstore) hs).2, hx⟩
    -- without such a handle an operation does nothing
    have hnone : Fine I R K s (s, x) := hsame s rfl rfl
    unfold Service.execute
    cases op with
    | outside o =>
      obtain ⟨hI, hR⟩ := h.outside hop hs
      exact ⟨hI, hR, hx⟩
    | call handle c =>
      dsimp only
      split
      · exact h.call hfree (hop _ ‹_›) hs hx
      · exact hnone
    | batch handle steps =>
      dsimp only
      split
      · next enabled henabled =>
        cases enabled with
        | true => exact h.batch hheld (hop true henabled) hs hx
        | false => exact h.batch hfree (hop false henabled) hs hx
      · exact hnone
    | destroy handle =>
      dsimp only
      split
      · obtain ⟨hI, hR⟩ := h.destroy hs handle
        exact ⟨hI, hR, hx⟩
      · exact hnone
    | attach handle | enable handle | disable handle | isEnabled handle | describe handle
    | config handle =>
      dsimp only
      split
      · exact hsame _ rfl rfl
      · exact hnone

end Follows

end HistoryCache
