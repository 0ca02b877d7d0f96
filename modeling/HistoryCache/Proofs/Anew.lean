import HistoryCache.Proofs.AlikeRuns
import HistoryCache.Proofs.LowMemory

/-!
# Starting anew

With no request in flight nobody holds an item, so a reset removes them all.  The budget and the pool
tell of the items and of nothing else, so they are then as in a new cache, and from there on the cache
does what a new one would.

* `Cache.items_reset`, `Cache.Balanced.of_empty`, `Cache.alike_reset`: what a reset leaves.
* `Traffic.anew_of_meanwhile`: runs after a reset look like runs with a new cache.
-/

namespace HistoryCache

namespace Cache

variable {c : Cache}

/-- A reset removes all items that nobody holds. -/
theorem items_reset (hpins : ∀ id, c.pinsOf id = 0) : c.reset.items = ∅ := by
  refine Std.ExtTreeMap.ext_getElem? fun j => ?_
  have hget : c.reset.items[j]? = if j ∈ c.ids then (c.items[j]?).bind leaving else c.items[j]? :=
    getElem?_removals Std.ExtTreeMap.nodup_keys c j
  rw [hget, Std.ExtTreeMap.getElem?_empty]
  cases hj : c.items[j]? with
  | none => split <;> rfl
  | some item =>
    have hheld := hpins j
    rw [Holds.pinsOf_some hj] at hheld
    rw [if_pos (mem_ids.2 ⟨item, hj⟩), Option.bind_some, leaving, if_neg (by omega)]

/-- Where no item is cached no text is pooled, and nothing of the budget is in use. -/
theorem Balanced.of_empty (h : c.Balanced 0) (hitems : c.items = ∅) :
    c.strings = {} ∧ c.budget.used = 0 ∧ c.budget.allocations = 0 := by
  have hbalances := h.balances
  have hheld : c.held = 0 := by
    rw [held, hitems]
    rfl
  rw [hheld, add_zero] at hbalances
  have hstrings : c.strings = {} := by
    have hcounts : c.strings.counts = ∅ := by
      refine Std.ExtTreeMap.ext_getElem? fun s => ?_
      rw [Std.ExtTreeMap.getElem?_empty]
      refine Std.ExtTreeMap.getElem?_eq_none fun hmem => ?_
      have hrefs := (hbalances.pooled s).1 (Std.ExtTreeMap.mem_iff_contains.1 hmem)
      rw [hbalances.refs, Multiset.count_zero] at hrefs
      exact Nat.lt_irrefl 0 hrefs
    rw [← hcounts]
  refine ⟨hstrings, ?_, ?_⟩
  · rw [hbalances.used, hstrings]
    rfl
  · rw [hbalances.allocations, hstrings]
    rfl

theorem clock_requestRemoval (c : Cache) (id : ItemId) : (c.requestRemoval id).clock = c.clock := by
  rw [requestRemoval]
  split
  · next item hid =>
    split
    · rfl
    · have hreleased : ((c.checkOut id).release item.history.releaseAll).2.clock = c.clock := by
        rw [(Books.release (c.checkOut id) item.history.releaseAll).rest]
        rfl
      rw [remove, hid]
      generalize Item.entryBytes = entry
      exact hreleased
  · rfl

/-- A reset does not look at the clock. -/
theorem clock_reset (c : Cache) : c.reset.clock = c.clock := by
  have hrequested : ∀ (ids : List ItemId) (c : Cache), (ids.foldl requestRemoval c).clock = c.clock := by
    intro ids
    induction ids with
    | nil => exact fun _ => rfl
    | cons id ids ih => exact fun c => (ih _).trans (clock_requestRemoval c id)
  exact hrequested c.ids c

/-- What is left of a cache with nothing in it is what no cache looks at, and what the clock is to
show. -/
theorem alike_of_empty {config : Config} (hbalanced : c.reset.Balanced 0)
    (hitems : c.reset.items = ∅) (hconfig : c.reset.config = config)
    (htotal : c.reset.budget.total = config.size) :
    c.reset.Alike { new config with clock := c.clock } := by
  obtain ⟨hstrings, hused, hallocations⟩ := hbalanced.of_empty hitems
  refine ⟨(new config).telemetry, 0, 0, ?_⟩
  simp only [hconfig, hitems, hstrings, htotal, hused, hallocations, clock_reset]
  rfl

end Cache

namespace Traffic

variable {config : Config} {turns : List Cache.Turn} {s : Service}

theorem Runs.pins (h : Runs config turns ⟨s, []⟩) (id : ItemId) : s.cache.pinsOf id = 0 :=
  h.possible.sound.pins id

/-- **A reset** with no request in flight leaves a cache like a new one. -/
theorem Runs.alike_reset (h : Runs config turns ⟨s, []⟩) :
    s.cache.reset.items = ∅ ∧ s.cache.reset.Balanced 0 ∧
      s.cache.reset.Alike { Cache.new config with clock := s.cache.clock } := by
  obtain ⟨turns', hreset⟩ := h.moves (.resets s [])
  have hitems := Cache.items_reset h.pins
  have hbalanced : s.cache.reset.Balanced 0 := hreset.possible.balanced
  obtain ⟨hconfig, htotal⟩ := hreset.course.keeps
  exact ⟨hitems, hbalanced, Cache.alike_of_empty hbalanced hitems hconfig htotal⟩

/-- **Starting anew**: with no request in flight a reset gives everything back, and whatever is done
then, with others in between, looks as if it were done with a new cache at the same clock. -/
theorem anew_of_meanwhile {answering : Answering} {permits : Service → Operation → Prop}
    (hanswers : ∀ question s answer t, answering question s answer t → t.cache = s.cache)
    {now : Int} {s₀ : Service} (hnew : Service.new config now = .ok s₀) {depth : Nat} {t : Service}
    (ht : Meanwhile answering permits depth s₀ t) :
    (∃ turns, Runs config turns ⟨t, []⟩) ∧
    ∀ turns s, Runs config turns ⟨s, []⟩ →
      s.reset.cache.items = ∅ ∧ s.reset.cache.strings.counts = ∅ ∧
      s.reset.cache.budget.used = 0 ∧ s.reset.cache.budget.allocations = 0 ∧
      ∀ (plan : List Interruption) (ops : List Operation) (reads : Nat),
        List.Forall₂ Schedule.Outcome.Alike (Schedule.run plan ops (s.reset, { reads := reads }))
          (Schedule.run plan ops ({ s with cache := { Cache.new config with clock := s.cache.clock } },
            { reads := reads })) := by
  refine ⟨(kept_runs config).meanwhile hanswers depth s₀ t [] ht ⟨[], .new now s₀ hnew⟩,
    fun turns s hs => ?_⟩
  obtain ⟨hitems, hbalanced, halike⟩ := hs.alike_reset
  obtain ⟨hstrings, hused, hallocations⟩ := hbalanced.of_empty hitems
  refine ⟨hitems, congrArg StringPool.counts hstrings, hused, hallocations, fun plan ops reads => ?_⟩
  have hlogged : (s.cache.reset.log .reset).Alike { Cache.new config with clock := s.cache.clock } :=
    (Cache.Alike.aside s.cache.reset _).symm.trans halike
  exact Schedule.run_alike plan ops ⟨⟨_, hlogged, rfl⟩, rfl, .nil⟩

/-- The two records of a text, their chunk and their item are given back, and the text with them. -/
theorem anew_textService : textService.cache.budget.used = 375 ∧
    textService.cache.strings.contains "on" ∧ textService.reset.cache.items = ∅ ∧
    textService.reset.cache.strings.counts = ∅ ∧ textService.reset.cache.budget.used = 0 ∧
    List.Forall₂ Schedule.Outcome.Alike
      (Schedule.run [] [.call 0 textOf8, .call 0 .stats] (textService.reset, {}))
      (Schedule.run [] [.call 0 textOf8, .call 0 .stats]
        ({ textService with cache := Cache.new {} }, {})) := by
  have hbefore : (textService.cache.budget.used, textService.cache.strings.contains "on") =
      (375, true) := by cbv
  obtain ⟨hused, hpooled⟩ := Prod.mk.inj hbefore
  have hquiet : oneTextTwice.Quiet := fun _ _ _ => rfl
  have ht : Meanwhile (fun _ s _ t => t.cache = s.cache) (fun _ _ => True) 1 newService textService :=
    .tail (.single (hquiet.does newService (.enable 0) ())) (hquiet.does (newService.enable 0) _ ())
  obtain ⟨⟨turns, hturns⟩, hanew⟩ := anew_of_meanwhile (fun _ _ _ _ h => h) new_newService ht
  obtain ⟨hitems, hstrings, hempty, -, hruns⟩ := hanew turns textService hturns
  have hclock : textService.cache.clock = [] := by cbv
  have hrun := hruns [] [.call 0 textOf8, .call 0 .stats] 0
  rw [hclock] at hrun
  exact ⟨hused, hpooled, hitems, hstrings, hempty, hrun⟩

end Traffic

end HistoryCache
