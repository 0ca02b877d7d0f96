import HistoryCache.Proofs.Frame
import HistoryCache.Proofs.Traffic

/-!
# What may change the mode

Low-memory mode comes with an eviction round and goes with a request or a reset; whatever else a cache
does leaves the mode, its time and the warnings alone (`Cache.Steady`).  A `Turn` is one such event with
the cache before and after it, and a `Course` is made of turns.  The rounds, requests and resets are its
marks, and `Goes` tells of a course by its marks: what lies between them is steady.
-/

namespace HistoryCache

/-- What may change the mode of a cache. -/
inductive Cause where
  /-- A round of eviction for an item, for want of so many bytes, and what the clock shows to it. -/
  | round (looks : Looks) (source : ItemId) (size : Nat)
  /-- A request begins. -/
  | request (now : Int)
  | reset
  | other

theorem Budget.total_tryCharge (b : Budget) (size : Nat) : (b.tryCharge size).2.total = b.total := by
  rw [tryCharge]
  split <;> rfl

namespace Cache

/-- The cache as a request finds it. -/
def greet (c : Cache) (now : Int) : Cache := if c.mode = .lowMemory then c.warnLowMemory now else c

/-- The mode and all that is noted for it stay the same. -/
structure Steady (c c' : Cache) : Prop where
  config : c'.config = c.config
  total : c'.budget.total = c.budget.total
  mode : c'.mode = c.mode
  modeSince : c'.modeSince = c.modeSince
  lastWarning : c'.lastWarning = c.lastWarning
  warnings : c'.warnings = c.warnings

namespace Steady

variable {c c' c'' : Cache}

theorem refl : Steady c c := ⟨rfl, rfl, rfl, rfl, rfl, rfl⟩

theorem trans (h : Steady c c') (k : Steady c' c'') : Steady c c'' where
  config := k.config.trans h.config
  total := k.total.trans h.total
  mode := k.mode.trans h.mode
  modeSince := k.modeSince.trans h.modeSince
  lastWarning := k.lastWarning.trans h.lastWarning
  warnings := k.warnings.trans h.warnings

theorem aside (h : c.Aside c') : Steady c c' := by
  refine ⟨?_, ?_, ?_, ?_, ?_, h.warnings⟩ <;> rw [h.cache]

theorem log (c : Cache) {e : Event} (he : e ≠ .fullyUsed) : Steady c (c.log e) := aside (.log c he)

theorem tick (c : Cache) : Steady c c.tick := aside (.setClock c _)

theorem books (h : Books c c') : Steady c c' := by
  refine ⟨?_, h.total, ?_, ?_, ?_, ?_⟩ <;> rw [h.rest]
  rfl

theorem tryCharge (c : Cache) (size : Nat) :
    Steady c { c with budget := (c.budget.tryCharge size).2 } :=
  ⟨rfl, c.budget.total_tryCharge size, rfl, rfl, rfl, rfl⟩

/-! ## Giving back -/

theorem refund (c : Cache) (size : Nat) : Steady c (c.refund size) := books (.refund c size)

theorem releaseText (c : Cache) (s : Handle) : Steady c (c.releaseText s).2 := books (.releaseText c s)

theorem releaseValue (c : Cache) (v : CachedValue) : Steady c (c.releaseValue v).2 :=
  books (.releaseValue c v)

theorem release (c : Cache) (gone : Released) : Steady c (c.release gone).2 := books (.release c gone)

theorem freeAll {α : Type} {f : α → Cache → Nat × Cache} (hf : ∀ a c, Steady c (f a c).2)
    (as : List α) (c : Cache) : Steady c (Cache.freeAll f as c).2 := by
  induction as generalizing c with
  | nil => exact refl
  | cons a as ih => exact (hf a c).trans (ih _)

theorem checkIn (c : Cache) (id : ItemId) (item : Item) : Steady c (c.checkIn id item) :=
  ⟨rfl, rfl, rfl, rfl, rfl, rfl⟩

theorem checkOut (c : Cache) (id : ItemId) : Steady c (c.checkOut id) := ⟨rfl, rfl, rfl, rfl, rfl, rfl⟩

theorem modify (c : Cache) (id : ItemId) (f : Item → Item) : Steady c (c.modify id f) := by
  rw [Cache.modify]
  split
  · exact ⟨rfl, rfl, rfl, rfl, rfl, rfl⟩
  · exact refl

theorem remove (c : Cache) (id : ItemId) : Steady c (c.remove id).2 := by
  rw [Cache.remove]
  split
  · next item _ =>
    have hreleased := (checkOut c id).trans (release (c.checkOut id) item.history.releaseAll)
    exact hreleased.trans ((refund _ Item.entryBytes).trans (aside (.measure _ _)))
  · exact refl

theorem requestRemoval (c : Cache) (id : ItemId) : Steady c (c.requestRemoval id) := by
  rw [Cache.requestRemoval]
  split
  · split
    · exact checkIn _ _ _
    · exact remove c id
  · exact refl

/-! ## Holding and leaving -/

theorem dropThrough (c : Cache) (sec : Int) (item : Item) :
    Steady c (c.dropThrough sec item).2 := release c _

theorem trim (c : Cache) (now : Int) (item : Item) : Steady c (c.trim now item).2 := by
  rw [Cache.trim]
  split
  · exact refl
  · split
    · exact release c _
    · exact refl

theorem pin (c : Cache) (id : ItemId) : Steady c (c.pin id) := modify c id _

theorem unpin (c : Cache) (now : Int) (id : ItemId) : Steady c (c.unpin now id) := by
  rw [Cache.unpin]
  split
  · exact refl
  · next item _ =>
    simp only []
    split
    · exact checkIn c id _
    · split
      · exact checkIn c id _
      · exact (checkIn c id _).trans (remove _ id)
      · have htrimmed := (checkOut c id).trans
          (trim (c.checkOut id) now { item with pins := item.pins - 1 })
        exact htrimmed.trans (checkIn _ id _)

theorem account (c : Cache) (now : Int) (id : Option ItemId) (hits misses : Nat) :
    Steady c (c.account now id hits misses) := by
  have hcounted : ∀ c₁ : Cache, Steady c₁ ({ c₁ with
      hits := c₁.hits + hits, misses := c₁.misses + misses }.measure (·.served hits misses)) :=
    fun _ => ⟨rfl, rfl, rfl, rfl, rfl, rfl⟩
  cases id with
  | none => exact hcounted c
  | some id => exact (modify c id _).trans (hcounted _)

theorem answer (c : Cache) (now : Int) (q : Request) (read : Nat) (item : Item) :
    Steady c (c.answer now q read item).2 := by
  rw [Cache.answer]
  exact (checkIn c q.item _).trans ((account _ now _ _ _).trans (unpin _ now q.item))

theorem giveUp (c : Cache) (q : Request) (e : Failure) : Steady c (c.giveUp q e) :=
  (log c (by simp)).trans (modify _ q.item _)

theorem finishBypass (c : Cache) (now : Int) (q : Request) (held : Bool)
    (result : Except StoreFailure (List Record)) : Steady c (c.finishBypass now q held result) := by
  have hleft : ∀ c₁ : Cache, Steady c c₁ → Steady c (if held then c₁.unpin now q.item else c₁) := by
    intro c₁ h
    split
    · exact h.trans (unpin c₁ now q.item)
    · exact h
  cases result with
  | ok records => exact hleft _ (account c now none 0 records.length)
  | error e => exact hleft c refl

end Steady

/-! ## Eviction -/

namespace Steady

theorem evict (reason : EvictionReason) (id : ItemId) (c : Cache) :
    Steady c (Cache.evict reason id c).2 := (remove c id).trans (aside (.measure _ _))

theorem evictIdleIn (c : Cache) (order : List ItemId) (source : ItemId) (before : Int) :
    Steady c (c.evictIdleIn order source before).2 := freeAll (evict .expired) _ c

theorem evictUntil (need : Nat) (ids : List ItemId) (freed : Nat) (c : Cache) :
    Steady c (Cache.evictUntil need ids freed c) := by
  induction ids generalizing freed c with
  | nil => exact refl
  | cons id ids ih =>
    rw [Cache.evictUntil]
    split
    · exact refl
    · exact (evict .weight id c).trans (ih _ _)

theorem reportItems (c : Cache) : Steady c c.reportItems := by
  have hfold : ∀ (total : Nat) (stats : List ItemStats) (c : Cache),
      Steady c (stats.foldl (fun c stats => c.log (.itemReport stats total)) c) := by
    intro total stats
    induction stats with
    | nil => exact fun _ => refl
    | cons s stats ih => exact fun c => (log c (by simp)).trans (ih _)
  exact (log c (by simp)).trans (hfold _ _ _)

theorem removals (ids : List ItemId) (c : Cache) : Steady c (ids.foldl Cache.requestRemoval c) := by
  induction ids generalizing c with
  | nil => exact refl
  | cons id ids ih => exact (requestRemoval c id).trans (ih _)

end Steady

/-! ## Turns -/

/-- What a cause does to a cache. -/
inductive Happens : Cause → Cache → Cache → Prop
  | round (now : Int) (source : ItemId) (size : Nat) (c : Cache) :
      Happens (.round (c.looks now) source size) c (c.makeSpace now source size)
  | request (now : Int) (c : Cache) : Happens (.request now) c (c.greet now)
  | reset (c : Cache) : Happens .reset c c.reset
  | other (c c' : Cache) (h : Steady c c') : Happens .other c c'

/-- One event, with the cache before and after it. -/
structure Turn where
  before : Cache
  cause : Cause
  after : Cache
  happens : Happens cause before after

namespace Turn

/-- A round of eviction for an item. -/
def round (now : Int) (source : ItemId) (size : Nat) (c : Cache) : Turn :=
  ⟨c, .round (c.looks now) source size, _, .round now source size c⟩

/-- A request finds the cache. -/
def request (now : Int) (c : Cache) : Turn := ⟨c, .request now, _, .request now c⟩

def reset (c : Cache) : Turn := ⟨c, .reset, _, .reset c⟩

/-- It is a round, a request or a reset. -/
def isMark (t : Turn) : Bool :=
  match t.cause with
  | .round .. | .request _ | .reset => true
  | .other => false

end Turn

/-- What happens from one cache to another. -/
inductive Course : Cache → List Turn → Cache → Prop
  | refl (c : Cache) : Course c [] c
  | tail {c : Cache} {turns : List Turn} (t : Turn) (prior : Course c turns t.before) :
      Course c (turns ++ [t]) t.after

namespace Course

variable {c c' c'' : Cache} {turns more : List Turn}

theorem single (t : Turn) : Course t.before [t] t.after := .tail t (.refl t.before)

theorem trans (h : Course c turns c') (k : Course c' more c'') : Course c (turns ++ more) c'' := by
  induction k with
  | refl => rwa [List.append_nil]
  | tail t _ ih =>
    rw [← List.append_assoc]
    exact .tail t ih

/-- Without a mark, nothing changes. -/
theorem steady (h : Course c turns c') (hturns : ∀ t ∈ turns, ¬ t.isMark) : Steady c c' := by
  induction h with
  | refl => exact .refl
  | tail t prior ih =>
    refine (ih fun u hu => hturns u (List.mem_append_left _ hu)).trans ?_
    have hmark := hturns t (List.mem_append_right _ (List.mem_singleton_self t))
    obtain ⟨d, cause, d', happens⟩ := t
    cases happens with
    | round | request | reset => exact absurd rfl hmark
    | other _ _ h => exact h

end Course

/-- What leads from one cache to another with just these rounds, requests and resets. -/
def Goes (marks : List Turn) (c c' : Cache) : Prop :=
  ∃ turns, Course c turns c' ∧ turns.filter Turn.isMark = marks

theorem Steady.goes {c c' : Cache} (h : Steady c c') : Goes [] c c' :=
  ⟨_, .single ⟨c, .other, c', .other c c' h⟩, rfl⟩

namespace Goes

variable {c c' c'' : Cache} {marks more : List Turn}

theorem refl : Goes [] c c := ⟨[], .refl c, rfl⟩

theorem single {t : Turn} (h : t.isMark) : Goes [t] t.before t.after :=
  ⟨_, .single t, List.filter_cons_of_pos h⟩

theorem trans (h : Goes marks c c') (k : Goes more c' c'') : Goes (marks ++ more) c c'' := by
  obtain ⟨turns, hcourse, rfl⟩ := h
  obtain ⟨turns', hcourse', rfl⟩ := k
  exact ⟨turns ++ turns', hcourse.trans hcourse', List.filter_append ..⟩

theorem steady (h : Goes marks c c') (k : Steady c' c'') : Goes marks c c'' := by
  have hall := h.trans k.goes
  rwa [List.append_nil] at hall

theorem after (h : Steady c c') (k : Goes marks c' c'') : Goes marks c c'' := h.goes.trans k

end Goes

end Cache

end HistoryCache
