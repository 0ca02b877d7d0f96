import HistoryCache.Proofs.Turns
import Mathlib.Data.List.Basic

/-!
# The mode in a course

A turn does one of six things to the mode and to what is noted for it (`Turn.Shifts`).  From that follow
the laws of a course: when the mode comes, when it goes, and how far warnings lie apart.

* `Cache.makeSpace_cases`, `Cache.warnLowMemory_cases`: what a round and a warning come to.
* `Cache.Turn.shifts`: what one turn does.
* `Cache.Course.latest_eq`: in low-memory mode the time noted is that of the last round that fell short.
* `Cache.Turn.enters`, `Cache.Course.leaves`, `Cache.Course.apart`: the laws of the mode.
-/

namespace HistoryCache

namespace Cache

/-! ## One turn -/

/-- The items that are idle when a round begins are not enough for it. -/
def Short (c : Cache) (start : Int) (source : ItemId) (size : Nat) : Prop :=
  (c.evictIdle source (c.expireBefore start)).1 < max size c.leastRelease

instance (c : Cache) (start : Int) (source : ItemId) (size : Nat) :
    Decidable (c.Short start source size) := inferInstanceAs (Decidable (_ < _))

/-- A warning is given if none was given lately, and otherwise nothing is noted. -/
def Alerts (now : Int) (c c' : Cache) : Prop :=
  c'.lastWarning = c.lastWarning ∧ c'.warnings = c.warnings ∨
    c.config.lowMemoryWarningPeriod < wrap (now - c.lastWarning) ∧ c'.lastWarning = now ∧
      c'.warnings = c.warnings + 1

/-- What `warnLowMemory` comes to: the end of the mode, or perhaps a warning. -/
theorem warnLowMemory_cases (c : Cache) (now : Int) :
    (c.warnLowMemory now).config = c.config ∧
    (c.warnLowMemory now).budget.total = c.budget.total ∧
    (c.config.lowMemoryResetPeriod < wrap (now - c.modeSince) ∧
        (c.warnLowMemory now).mode = .normal ∧ (c.warnLowMemory now).modeSince = now ∧
        (c.warnLowMemory now).lastWarning = c.lastWarning ∧
        (c.warnLowMemory now).warnings = c.warnings ∨
      ¬ c.config.lowMemoryResetPeriod < wrap (now - c.modeSince) ∧
        (c.warnLowMemory now).mode = c.mode ∧ (c.warnLowMemory now).modeSince = c.modeSince ∧
        Alerts now c (c.warnLowMemory now)) := by
  rw [warnLowMemory]
  split
  · next hlong => exact ⟨rfl, rfl, Or.inl ⟨hlong, rfl, rfl, rfl, (Steady.log _ (by simp)).warnings⟩⟩
  · next hlong =>
    split
    · next hwarn =>
      have hreport := Steady.reportItems { c with lastWarning := now }
      have hmemory : Steady _ (reportItems { c with lastWarning := now }).reportMemory :=
        Steady.log _ (by simp)
      have hreports := hreport.trans hmemory
      refine ⟨hreports.config, hreports.total, Or.inr ⟨hlong, hreports.mode, hreports.modeSince,
        Or.inr ⟨hwarn, hreports.lastWarning, ?_⟩⟩⟩
      have hlogged : ∀ c₁ : Cache, (c₁.log .fullyUsed).warnings = c₁.warnings + 1 :=
        fun c₁ => List.count_cons_self
      rw [hlogged, hreports.warnings]
      rfl
    · exact ⟨rfl, rfl, Or.inr ⟨hlong, rfl, rfl, Or.inl ⟨rfl, rfl⟩⟩⟩

theorem enterLowMemory_spec (c : Cache) (now : Int) (requested : Nat) :
    (c.enterLowMemory now requested).config = c.config ∧
    (c.enterLowMemory now requested).budget.total = c.budget.total ∧
    (c.enterLowMemory now requested).mode = .lowMemory ∧
    (c.enterLowMemory now requested).modeSince = now ∧
    (c.enterLowMemory now requested).lastWarning = c.lastWarning ∧
    (c.enterLowMemory now requested).warnings = c.warnings := by
  rw [enterLowMemory]
  split
  · exact ⟨rfl, rfl, rfl, rfl, rfl, rfl⟩
  · exact ⟨rfl, rfl, rfl, rfl, rfl, (Steady.log c (by simp)).warnings⟩

/-- A round that finds enough idle items leaves the mode alone.  Any other enters low-memory mode and
warns of it. -/
theorem makeSpace_cases (c : Cache) (now : Int) (source : ItemId) (size : Nat) :
    ¬ c.Short (c.looks now).start source size ∧ Steady c (c.makeSpace now source size) ∨
      c.Short (c.looks now).start source size ∧ ∃ c₁, Steady c c₁ ∧
        Steady ((c₁.enterLowMemory (c.looks now).start size).warnLowMemory (c.looks now).warning)
          (c.makeSpace now source size) := by
  have hidle := Steady.evictIdleIn c c.ids source (c.expireBefore (c.looks now).start)
  rw [makeSpace, makeSpaceIn]
  simp only []
  by_cases hshort : c.Short (c.looks now).start source size
  · refine .inr ⟨hshort, _, hidle, ?_⟩
    rw [Short, evictIdle] at hshort
    rw [if_neg (by omega)]
    exact (Steady.evictUntil _ _ _ _).trans (.tick _)
  · refine .inl ⟨hshort, ?_⟩
    rw [Short, evictIdle] at hshort
    rw [if_pos (by omega)]
    exact hidle.trans (.tick _)

/-- A round that falls short **brings the mode**, from the time of its first look at the clock on.  If
its second look is too long after that, the mode is over with it. -/
theorem makeSpace_of_short {c : Cache} {now : Int} {source : ItemId} {size : Nat}
    (hshort : c.Short (c.looks now).start source size) :
    c.config.lowMemoryResetPeriod < wrap ((c.looks now).warning - (c.looks now).start) ∧
        (c.makeSpace now source size).mode = .normal ∧
        (c.makeSpace now source size).modeSince = (c.looks now).warning ∧
        (c.makeSpace now source size).lastWarning = c.lastWarning ∧
        (c.makeSpace now source size).warnings = c.warnings ∨
      ¬ c.config.lowMemoryResetPeriod < wrap ((c.looks now).warning - (c.looks now).start) ∧
        (c.makeSpace now source size).mode = .lowMemory ∧
        (c.makeSpace now source size).modeSince = (c.looks now).start ∧
        Alerts (c.looks now).warning c (c.makeSpace now source size) := by
  obtain ⟨hnot, -⟩ | ⟨-, c₁, h, h'⟩ := makeSpace_cases c now source size
  · exact absurd hshort hnot
  obtain ⟨hconfig, -, hmode, hsince, hlast, hwarnings⟩ :=
    enterLowMemory_spec c₁ (c.looks now).start size
  have hcases := (warnLowMemory_cases (c₁.enterLowMemory (c.looks now).start size)
    (c.looks now).warning).2.2
  rw [Alerts, hconfig, hmode, hsince, hlast, hwarnings, h.config, h.lastWarning, h.warnings,
    ← h'.mode, ← h'.modeSince, ← h'.lastWarning, ← h'.warnings] at hcases
  exact hcases

theorem greet_of_lowMemory {c : Cache} (h : c.mode = .lowMemory) (now : Int) :
    c.greet now = c.warnLowMemory now := if_pos h

namespace Turn

variable {config : Config} {t : Turn}

/-- When a round began that fell short. -/
def short? (t : Turn) : Option Int :=
  match t.cause with
  | .round looks source size =>
    if t.before.Short looks.start source size then some looks.start else none
  | .request _ | .reset | .other => none

/-- A warning is given at a time. -/
def WarnsAt (t : Turn) (now : Int) : Prop :=
  t.before.warnings < t.after.warnings ∧
    (t.cause = .request now ∨
      ∃ looks source size, t.cause = .round looks source size ∧ looks.warning = now)

/-- What a turn does to the mode and to what is noted for it. -/
inductive Shifts (t : Turn) : Prop
  /-- Nothing, and it is no round that falls short. -/
  | steady (h : Steady t.before t.after) (hreset : t.cause ≠ .reset) (hshort : t.short? = none)
  | enters (looks : Looks) (source : ItemId) (size : Nat) (hcause : t.cause = .round looks source size)
      (hshort : t.before.Short looks.start source size)
      (hsoon : ¬ t.before.config.lowMemoryResetPeriod < wrap (looks.warning - looks.start))
      (hmode : t.after.mode = .lowMemory) (hsince : t.after.modeSince = looks.start)
      (halerts : Alerts looks.warning t.before t.after)
  /-- A round that falls short and takes too long for the mode to outlast it. -/
  | outlasts (looks : Looks) (source : ItemId) (size : Nat)
      (hcause : t.cause = .round looks source size) (hshort : t.before.Short looks.start source size)
      (hlong : t.before.config.lowMemoryResetPeriod < wrap (looks.warning - looks.start))
      (hmode : t.after.mode = .normal) (hlast : t.after.lastWarning = t.before.lastWarning)
      (hwarnings : t.after.warnings = t.before.warnings)
  | leaves (now : Int) (hcause : t.cause = .request now) (hlow : t.before.mode = .lowMemory)
      (hlong : t.before.config.lowMemoryResetPeriod < wrap (now - t.before.modeSince))
      (hmode : t.after.mode = .normal) (hlast : t.after.lastWarning = t.before.lastWarning)
      (hwarnings : t.after.warnings = t.before.warnings)
  | stays (now : Int) (hcause : t.cause = .request now) (hmode : t.after.mode = t.before.mode)
      (hsince : t.after.modeSince = t.before.modeSince) (halerts : Alerts now t.before t.after)
  | resets (hcause : t.cause = .reset) (hmode : t.after.mode = .normal)
      (hwarnings : t.after.warnings = t.before.warnings)

theorem keeps (t : Turn) :
    t.after.config = t.before.config ∧ t.after.budget.total = t.before.budget.total := by
  obtain ⟨c, cause, c', happens⟩ := t
  show c'.config = c.config ∧ c'.budget.total = c.budget.total
  cases happens with
  | round now source size =>
    rcases makeSpace_cases c now source size with ⟨-, h⟩ | ⟨-, c₁, h, h'⟩
    · exact ⟨h.config, h.total⟩
    · obtain ⟨hconfig, htotal, -⟩ := enterLowMemory_spec c₁ (c.looks now).start size
      obtain ⟨hconfig', htotal', -⟩ :=
        warnLowMemory_cases (c₁.enterLowMemory (c.looks now).start size) (c.looks now).warning
      exact ⟨by rw [h'.config, hconfig', hconfig, h.config], by rw [h'.total, htotal', htotal, h.total]⟩
  | request now =>
    rw [greet]
    split
    · exact ⟨(warnLowMemory_cases c now).1, (warnLowMemory_cases c now).2.1⟩
    · exact ⟨rfl, rfl⟩
  | reset =>
    have h := Steady.removals c.ids c
    exact ⟨h.config, h.total⟩
  | other _ _ h => exact ⟨h.config, h.total⟩

theorem shifts_round (now : Int) (source : ItemId) (size : Nat) (c : Cache) :
    (Turn.round now source size c).Shifts := by
  rcases makeSpace_cases c now source size with ⟨hnot, h⟩ | ⟨hshort, -⟩
  · exact .steady h (by simp [round]) (if_neg hnot)
  · rcases makeSpace_of_short hshort with
      ⟨hlong, hmode, -, hlast, hwarnings⟩ | ⟨hsoon, hmode, hsince, halerts⟩
    · exact .outlasts _ source size rfl hshort hlong hmode hlast hwarnings
    · exact .enters _ source size rfl hshort hsoon hmode hsince halerts

theorem shifts_request (now : Int) (c : Cache) : (Turn.request now c).Shifts := by
  by_cases hlow : c.mode = .lowMemory
  · have hcases := warnLowMemory_cases c now
    rw [← greet_of_lowMemory hlow] at hcases
    obtain ⟨-, -, ⟨hlong, hmode, -, hlast, hwarnings⟩ | ⟨-, hmode, hsince, halerts⟩⟩ := hcases
    · exact .leaves now rfl hlow hlong hmode hlast hwarnings
    · exact .stays now rfl hmode hsince halerts
  · refine .steady ?_ (by simp [request]) rfl
    show Steady c (if c.mode = .lowMemory then c.warnLowMemory now else c)
    rw [if_neg hlow]
    exact .refl

/-- **What a turn does.** -/
theorem shifts (t : Turn) : t.Shifts := by
  obtain ⟨c, cause, c', happens⟩ := t
  cases happens with
  | round now source size => exact shifts_round now source size c
  | request now => exact shifts_request now c
  | reset => exact .resets rfl rfl (Steady.removals c.ids c).warnings
  | other _ _ h => exact .steady h (by simp) rfl

end Turn

/-! ## Courses -/

/-- When the last round began that fell short. -/
def latest (turns : List Turn) : Option Int := turns.reverse.findSome? Turn.short?

theorem latest_concat (turns : List Turn) (t : Turn) :
    latest (turns ++ [t]) = t.short?.or (latest turns) := by
  rw [latest, List.reverse_append, List.reverse_singleton, List.singleton_append, List.findSome?_cons]
  cases t.short? <;> rfl

namespace Course

variable {c c' : Cache} {turns xs ys : List Turn} {t : Turn}

theorem keeps (h : Course c turns c') :
    c'.config = c.config ∧ c'.budget.total = c.budget.total := by
  induction h with
  | refl => exact ⟨rfl, rfl⟩
  | tail t _ ih => exact ⟨t.keeps.1.trans ih.1, t.keeps.2.trans ih.2⟩

theorem split (h : Course c turns c') (hturns : turns = xs ++ ys) :
    ∃ m, Course c xs m ∧ Course m ys c' := by
  induction h generalizing ys with
  | refl =>
    obtain ⟨rfl, rfl⟩ := List.append_eq_nil_iff.1 hturns.symm
    exact ⟨c, .refl c, .refl c⟩
  | @tail turns t prior ih =>
    rcases List.eq_nil_or_concat' ys with rfl | ⟨ys, u, rfl⟩
    · rw [List.append_nil] at hturns
      subst hturns
      exact ⟨_, .tail t prior, .refl _⟩
    · rw [← List.append_assoc] at hturns
      obtain ⟨hprior, hu⟩ := List.append_inj' hturns rfl
      cases hu
      obtain ⟨m, hxs, hys⟩ := ih hprior
      exact ⟨m, hxs, .tail t hys⟩

theorem of_nil (h : Course c turns c') (hturns : turns = []) : c' = c := by
  cases h with
  | refl => rfl
  | tail => simp at hturns

theorem of_singleton (h : Course c turns c') (hturns : turns = [t]) : c = t.before ∧ c' = t.after := by
  cases h with
  | refl => cases hturns
  | tail u prior =>
    obtain ⟨hnone, hu⟩ := List.append_inj' (hturns.trans (List.nil_append [t]).symm) rfl
    cases hu
    exact ⟨(prior.of_nil hnone).symm, rfl⟩

theorem of_cons (h : Course c (t :: turns) c') : c = t.before ∧ Course t.after turns c' := by
  obtain ⟨m, hfirst, hrest⟩ := h.split (show t :: turns = [t] ++ turns from rfl)
  obtain ⟨rfl, rfl⟩ := hfirst.of_singleton rfl
  exact ⟨rfl, hrest⟩

/-- **The time of the mode** is that of the last round that fell short. -/
theorem latest_eq (h : Course c turns c') (hnormal : c.mode = .normal) (hlow : c'.mode = .lowMemory) :
    latest turns = some c'.modeSince := by
  induction h with
  | refl =>
    rw [hnormal] at hlow
    cases hlow
  | tail t prior ih =>
    rw [latest_concat]
    cases t.shifts with
    | steady h _ hshort =>
      rw [hshort, Option.none_or, h.modeSince]
      exact ih (by rw [← h.mode, hlow])
    | enters looks source size hcause hshort _ _ hsince =>
      have hfell : t.short? = some looks.start := by
        rw [Turn.short?, hcause]
        exact if_pos hshort
      rw [hfell, hsince]
      rfl
    | outlasts _ _ _ _ _ _ hmode =>
      rw [hmode] at hlow
      cases hlow
    | leaves _ _ _ _ hmode =>
      rw [hmode] at hlow
      cases hlow
    | stays now hcause hmode hsince =>
      have hnone : t.short? = none := by rw [Turn.short?, hcause]
      rw [hnone, Option.none_or, hsince]
      exact ih (by rw [← hmode, hlow])
    | resets _ hmode =>
      rw [hmode] at hlow
      cases hlow

/-- **A warning is noted** until there is a reset or another warning. -/
theorem lastWarning_eq (h : Course c turns c')
    (hturns : ∀ t ∈ turns, t.cause ≠ .reset ∧ t.after.warnings = t.before.warnings) :
    c'.lastWarning = c.lastWarning := by
  induction h with
  | refl => rfl
  | tail t prior ih =>
    have hsame := ih fun u hu => hturns u (List.mem_append_left _ hu)
    obtain ⟨hreset, hquiet⟩ := hturns t (List.mem_append_right _ (List.mem_singleton_self t))
    have halert : ∀ {now}, Alerts now t.before t.after → t.after.lastWarning = t.before.lastWarning := by
      rintro now (⟨hlast, -⟩ | ⟨-, -, hmore⟩)
      · exact hlast
      · omega
    refine Eq.trans ?_ hsame
    cases t.shifts with
    | steady h => exact h.lastWarning
    | enters _ _ _ _ _ _ _ _ halerts => exact halert halerts
    | outlasts _ _ _ _ _ _ _ hlast => exact hlast
    | leaves _ _ _ _ _ hlast => exact hlast
    | stays _ _ _ _ halerts => exact halert halerts
    | resets hcause => exact absurd hcause hreset

end Course

namespace Turn

variable {t : Turn} {now : Int}

/-- A warning comes with a request or a round, is noted, and none was noted for some time before. -/
theorem WarnsAt.alerts (h : t.WarnsAt now) :
    t.before.config.lowMemoryWarningPeriod < wrap (now - t.before.lastWarning) ∧
      t.after.lastWarning = now := by
  obtain ⟨hmore, hcause⟩ := h
  have halert : ∀ {now}, Alerts now t.before t.after →
      t.before.config.lowMemoryWarningPeriod < wrap (now - t.before.lastWarning) ∧
        t.after.lastWarning = now := by
    rintro now (⟨-, hwarnings⟩ | ⟨hlong, hlast, -⟩)
    · omega
    · exact ⟨hlong, hlast⟩
  cases t.shifts with
  | steady h => have := h.warnings; omega
  | enters looks source size hcause' _ _ _ _ halerts =>
    rcases hcause with hcause | ⟨looks', source', size', hcause, rfl⟩
    · rw [hcause'] at hcause
      cases hcause
    · rw [hcause'] at hcause
      cases hcause
      exact halert halerts
  | outlasts _ _ _ _ _ _ _ _ hwarnings => omega
  | leaves _ _ _ _ _ _ hwarnings => omega
  | stays now' hcause' _ _ halerts =>
    rcases hcause with hcause | ⟨looks, source, size, hcause, -⟩
    · rw [hcause'] at hcause
      cases hcause
      exact halert halerts
    · rw [hcause'] at hcause
      cases hcause
  | resets _ _ hwarnings => omega

/-- **The mode comes** with a round that falls short. -/
theorem enters (hnormal : t.before.mode = .normal) (hlow : t.after.mode = .lowMemory) :
    ∃ looks source size, t.cause = .round looks source size ∧
      t.before.Short looks.start source size ∧ t.after.modeSince = looks.start := by
  cases t.shifts with
  | steady h => rw [h.mode, hnormal] at hlow; cases hlow
  | enters looks source size hcause hshort _ _ hsince =>
    exact ⟨looks, source, size, hcause, hshort, hsince⟩
  | outlasts _ _ _ _ _ _ hmode => rw [hmode] at hlow; cases hlow
  | leaves _ _ _ _ hmode => rw [hmode] at hlow; cases hlow
  | stays _ _ hmode => rw [hmode, hnormal] at hlow; cases hlow
  | resets _ hmode => rw [hmode] at hlow; cases hlow

end Turn

/-! ## The laws of courses -/

namespace Course

variable {c c' : Cache} {turns : List Turn} {t : Turn}

/-- What leads to a turn of a course, and what it leads to. -/
theorem around {earlier later : List Turn} {t : Turn} (h : Course c (earlier ++ t :: later) c') :
    Course c earlier t.before ∧ t.before.config = c.config ∧ Course t.after later c' := by
  obtain ⟨m, hearlier, hlater⟩ := h.split rfl
  obtain ⟨rfl, hafter⟩ := hlater.of_cons
  exact ⟨hearlier, hearlier.keeps.1, hafter⟩

/-- With one mark, nothing changes before it and after it. -/
theorem of_mark (h : Course c turns c') (hmark : turns.filter Turn.isMark = [t]) :
    Steady c t.before ∧ Steady t.after c' ∧ t ∈ turns := by
  obtain ⟨xs, ys, rfl, hxs, -, hys⟩ := List.filter_eq_cons_iff.1 hmark
  obtain ⟨hbefore, -, hafter⟩ := h.around
  exact ⟨hbefore.steady hxs, hafter.steady fun u hu hmarked =>
    absurd (List.mem_filter.2 ⟨hu, hmarked⟩) (by rw [hys]; exact List.not_mem_nil), by simp⟩

/-- **The mode goes** with a reset, with a request long after the last round that fell short began, or
with such a round that takes long itself. -/
theorem leaves (hstart : c.mode = .normal) {earlier later : List Turn} {t : Turn}
    (h : Course c (earlier ++ t :: later) c') (hlow : t.before.mode = .lowMemory)
    (hnormal : t.after.mode = .normal) :
    t.cause = .reset ∨
      (∃ now since, t.cause = .request now ∧ latest earlier = some since ∧
        c.config.lowMemoryResetPeriod < wrap (now - since)) ∨
      ∃ looks source size, t.cause = .round looks source size ∧
        t.before.Short looks.start source size ∧
        c.config.lowMemoryResetPeriod < wrap (looks.warning - looks.start) := by
  obtain ⟨hearlier, hconfig, -⟩ := h.around
  have hsince := hearlier.latest_eq hstart hlow
  rw [← hconfig]
  cases t.shifts with
  | steady h => rw [h.mode, hlow] at hnormal; cases hnormal
  | enters _ _ _ _ _ _ hmode => rw [hmode] at hnormal; cases hnormal
  | outlasts looks source size hcause hshort hlong =>
    exact .inr (.inr ⟨looks, source, size, hcause, hshort, hlong⟩)
  | leaves now hcause _ hlong => exact .inr (.inl ⟨now, _, hcause, hsince, hlong⟩)
  | stays _ _ hmode => rw [hmode, hlow] at hnormal; cases hnormal
  | resets hcause => exact .inl hcause

/-- **Two warnings** with no reset and no other warning between them are some time apart. -/
theorem apart {earlier between later : List Turn} {t u : Turn}
    (h : Course c (earlier ++ t :: (between ++ u :: later)) c')
    (hno : ∀ v ∈ between, v.cause ≠ .reset ∧ v.after.warnings = v.before.warnings)
    {first second : Int} (ht : t.WarnsAt first) (hu : u.WarnsAt second) :
    c.config.lowMemoryWarningPeriod < wrap (second - first) := by
  obtain ⟨-, hconfig, hafter⟩ := h.around
  obtain ⟨hbetween, hconfig', -⟩ := hafter.around
  have hlong := hu.alerts.1
  rw [hbetween.lastWarning_eq hno, ht.alerts.2, hconfig', t.keeps.1, hconfig] at hlong
  exact hlong

end Course

end Cache

end HistoryCache
