import HistoryCache.Item
import Mathlib.Data.List.Induction

/-!
# The active range

Requests tell an item which ranges they need (`Item.updateRange`).  The daily range follows the
longest of them; now and then it becomes the active range and starts again, which is a
synchronisation (`Item.Syncs`).

What has been needed since the last synchronisation is kept beside the item here (`Tracked`), and
the times with it, so that the two ranges and the next synchronisation can be told from the needs
alone (`Tracked.ranges_of_needs`).  The item itself has only the hour on a dial of 256, and across
the end of the dial an hour is lost: 25 hours look like 24 there, and the synchronisation that is due
does not happen (`Tracked.not_ranges_after_dial`).
-/

namespace HistoryCache

/-- A range that a request needed, and the time of the request. -/
structure Need where
  range : Int
  now : Int
  deriving DecidableEq

namespace Item

/-- Whether a need makes the daily range the active one. -/
def Syncs (item : Item) (n : Need) : Prop :=
  item.activeRange < max item.dailyRange (max n.range minRange) ∨
    syncPeriod < hoursBetween item.syncHour (hourOf n.now)

instance (item : Item) (n : Need) : Decidable (item.Syncs n) :=
  inferInstanceAs (Decidable (_ ∨ _))

theorem updateRange_of_syncs {item : Item} {n : Need} (h : item.Syncs n) :
    item.updateRange n.range n.now =
      { item with
        activeRange := max item.dailyRange (max n.range minRange)
        dailyRange := max n.range minRange
        syncHour := hourOf n.now } := if_pos h

theorem updateRange_of_not_syncs {item : Item} {n : Need} (h : ¬ item.Syncs n) :
    item.updateRange n.range n.now =
      { item with dailyRange := max item.dailyRange (max n.range minRange) } := if_neg h

/-! ## The dial -/

/-- The whole hours from one time to another. -/
def hoursPassed (since now : Int) : Int := now.tdiv 3600 - since.tdiv 3600

/-- Whether the dial shows more than a day.  Whole turns do not show, and the last hour of a day does
not either if the end of the dial lies in between. -/
def Overdue (since now : Int) : Prop :=
  syncPeriod < hoursPassed since now % 256 ∧
    (hoursPassed since now % 256 = syncPeriod + 1 → since.tdiv 3600 % 256 + syncPeriod + 1 < 256)

theorem hoursBetween_hourOf (since now : Int) :
    hoursBetween (hourOf since) (hourOf now) =
      if since.tdiv 3600 % 256 + hoursPassed since now % 256 < 256 then
        hoursPassed since now % 256
      else hoursPassed since now % 256 - 1 := by
  rw [hoursBetween, hourOf, hourOf, hoursPassed]
  split <;> split <;> omega

theorem overdue_iff {since now : Int} :
    Overdue since now ↔ syncPeriod < hoursBetween (hourOf since) (hourOf now) := by
  rw [hoursBetween_hourOf, Overdue, syncPeriod]
  split <;> omega

end Item

/-! ## Needs -/

/-- The longest range that was needed, and not less than the shortest that is kept. -/
def Need.longest (needs : List Need) : Int :=
  needs.foldl (fun range n => max range n.range) Item.minRange

theorem Need.longest_concat (needs : List Need) (n : Need) :
    longest (needs ++ [n]) = max (longest needs) n.range := by
  rw [longest, List.foldl_append]
  rfl

theorem Need.longest_singleton (n : Need) : longest [n] = max n.range Item.minRange :=
  Int.max_comm _ _

theorem Need.minRange_le_longest (needs : List Need) : Item.minRange ≤ longest needs := by
  induction needs using List.reverseRecOn with
  | nil => exact Int.le_refl _
  | append_singleton needs n ih =>
    rw [longest_concat]
    omega

/-- An item, and what was needed from its last synchronisation on, that need included. -/
structure Tracked where
  item : Item
  since : List Need

namespace Tracked

/-- One more need. -/
def note (t : Tracked) (n : Need) : Tracked where
  item := t.item.updateRange n.range n.now
  since := if t.item.Syncs n then [n] else t.since ++ [n]

/-- A new item after some needs. -/
def after (kind : Kind) (made : Int) (needs : List Need) : Tracked :=
  needs.foldl note ⟨.empty kind made, []⟩

/-- The ranges of an item are told by what is tracked beside it. -/
structure Follows (t : Tracked) (needs : List Need) : Prop where
  suffix : t.since <:+ needs
  daily : t.item.dailyRange = Need.longest t.since
  daily_le : t.item.dailyRange ≤ t.item.activeRange
  hour : ∃ sync, t.since.head? = some sync ∧ t.item.syncHour = Item.hourOf sync.now

variable {t : Tracked} {needs : List Need} {n : Need}

/-- The first need of a new item synchronises it. -/
theorem syncs_empty (kind : Kind) (made : Int) (n : Need) : (Item.empty kind made).Syncs n := by
  left
  show (0 : Int) < max 0 (max n.range 60)
  omega

/-- A synchronisation makes the longest range that was needed from the one before on the active
one. -/
theorem activeRange_of_syncs (h : t.item.Syncs n)
    (hdaily : max t.item.dailyRange Item.minRange = Need.longest t.since) :
    (t.note n).item.activeRange = Need.longest (t.since ++ [n]) := by
  have hitem : (t.note n).item = _ := Item.updateRange_of_syncs h
  rw [hitem, Need.longest_concat, ← hdaily]
  show max t.item.dailyRange (max n.range Item.minRange) = _
  omega

theorem follows_of_syncs (h : t.item.Syncs n)
    (hdaily : max t.item.dailyRange Item.minRange = Need.longest t.since) :
    (t.note n).Follows (needs ++ [n]) := by
  have hsince : (t.note n).since = [n] := if_pos h
  have hitem : (t.note n).item = _ := Item.updateRange_of_syncs h
  have hrestart : (t.note n).item.dailyRange = Need.longest [n] := by
    rw [hitem, Need.longest_singleton]
  refine ⟨?_, ?_, ?_, n, ?_, ?_⟩
  · rw [hsince]
    exact List.suffix_append needs [n]
  · rw [hsince, hrestart]
  · rw [activeRange_of_syncs h hdaily, hrestart, Need.longest_concat, Need.longest_singleton]
    have := Need.minRange_le_longest t.since
    omega
  · rw [hsince]
    rfl
  · rw [hitem]

namespace Follows

theorem longest_since (hf : t.Follows needs) :
    max t.item.dailyRange Item.minRange = Need.longest t.since := by
  rw [hf.daily]
  exact Int.max_eq_left (Need.minRange_le_longest _)

/-- Without a synchronisation one more need is taken into the daily range. -/
theorem of_not_syncs (hf : t.Follows needs) (h : ¬ t.item.Syncs n) :
    (t.note n).Follows (needs ++ [n]) ∧ (t.note n).since = t.since ++ [n] ∧
      (t.note n).item.activeRange = t.item.activeRange := by
  have hsince : (t.note n).since = t.since ++ [n] := if_neg h
  have hitem : (t.note n).item = _ := Item.updateRange_of_not_syncs h
  have hdaily : (t.note n).item.dailyRange = Need.longest (t.since ++ [n]) := by
    rw [hitem, Need.longest_concat, ← hf.daily]
    show max t.item.dailyRange (max n.range Item.minRange) = _
    have := hf.daily ▸ Need.minRange_le_longest t.since
    omega
  obtain ⟨sync, hsync, hhour⟩ := hf.hour
  refine ⟨⟨?_, ?_, ?_, sync, ?_, ?_⟩, hsince, by rw [hitem]⟩
  · rw [hsince]
    obtain ⟨earlier, rfl⟩ := hf.suffix
    exact ⟨earlier, (List.append_assoc _ _ _).symm⟩
  · rw [hsince, hdaily]
  · rw [Item.Syncs, not_or, Int.not_lt] at h
    rw [hitem]
    exact h.1
  · rw [hsince, List.head?_append, hsync]
    rfl
  · rw [hitem]
    exact hhour

/-- A synchronisation happens when a need outgrows the active range, or is late. -/
theorem syncs_iff (hf : t.Follows needs) :
    t.item.Syncs n ↔ t.item.activeRange < n.range ∨
      ∃ sync, t.since.head? = some sync ∧ Item.Overdue sync.now n.now := by
  obtain ⟨sync, hsync, hhour⟩ := hf.hour
  have hle := hf.daily_le
  have hmin := hf.daily ▸ Need.minRange_le_longest t.since
  rw [Item.Syncs, hhour, ← Item.overdue_iff, hsync]
  simp only [Option.some.injEq, exists_eq_left']
  refine or_congr_left ?_
  omega

end Follows

theorem after_concat (kind : Kind) (made : Int) (needs : List Need) (n : Need) :
    after kind made (needs ++ [n]) = (after kind made needs).note n := by
  rw [after, List.foldl_append]
  rfl

/-- After any needs the item follows them. -/
theorem follows_after (kind : Kind) (made : Int) (hneeds : needs ≠ []) :
    (after kind made needs).Follows needs := by
  induction needs using List.reverseRecOn with
  | nil => exact absurd rfl hneeds
  | append_singleton needs n ih =>
    rw [after_concat]
    by_cases hnil : needs = []
    · -- A new item has the range 0, below the shortest; it follows nothing before its first need.
      subst hnil
      exact follows_of_syncs (syncs_empty kind made n) rfl
    · by_cases h : (after kind made needs).item.Syncs n
      · exact follows_of_syncs h (ih hnil).longest_since
      · exact ((ih hnil).of_not_syncs h).1

theorem longest_before (kind : Kind) (made : Int) (needs : List Need) :
    max (after kind made needs).item.dailyRange Item.minRange =
      Need.longest (after kind made needs).since := by
  by_cases hnil : needs = []
  · subst hnil
    rfl
  · exact (follows_after kind made hnil).longest_since

/-- **The ranges** of a new item after any needs.  The daily range is the longest that was needed from
the last synchronisation on, and the active range is not below it; the last need is a synchronisation
if it is the first one, outgrows the active range, or is late. -/
theorem ranges_of_needs (kind : Kind) (made : Int) (earlier : List Need) (n : Need) :
    let before := after kind made earlier
    let last := after kind made (earlier ++ [n])
    last.item = before.item.updateRange n.range n.now ∧ last.Follows (earlier ++ [n]) ∧
    (before.item.Syncs n ↔ earlier = [] ∨ before.item.activeRange < n.range ∨
      ∃ sync, before.since.head? = some sync ∧ Item.Overdue sync.now n.now) ∧
    if before.item.Syncs n then
      last.since = [n] ∧ last.item.dailyRange = max n.range Item.minRange ∧
        last.item.activeRange = Need.longest (before.since ++ [n])
    else
      last.since = before.since ++ [n] ∧ last.item.activeRange = before.item.activeRange := by
  intro before last
  have hlast : last = before.note n := after_concat kind made earlier n
  have hfollows : last.Follows (earlier ++ [n]) :=
    follows_after kind made (List.append_ne_nil_of_right_ne_nil _ (List.cons_ne_nil n []))
  refine ⟨by rw [hlast]; rfl, hfollows, ?_, ?_⟩
  · by_cases hnil : earlier = []
    · simp only [hnil, true_or, iff_true]
      show (after kind made earlier).item.Syncs n
      rw [hnil]
      exact syncs_empty kind made n
    · simp only [hnil, false_or]
      exact (follows_after kind made hnil).syncs_iff
  · split
    · next h =>
      have hsince : last.since = [n] := by rw [hlast]; exact if_pos h
      refine ⟨hsince, by rw [hfollows.daily, hsince, Need.longest_singleton], ?_⟩
      rw [hlast]
      exact activeRange_of_syncs h (longest_before kind made earlier)
    · next h =>
      have hnil : earlier ≠ [] := by
        rintro rfl
        exact h (syncs_empty kind made n)
      rw [hlast]
      exact ((follows_after kind made hnil).of_not_syncs h).2

/-- **A synchronisation that is due** does not happen 25 hours after the last one, if the end of the
dial lies in between. -/
theorem not_ranges_after_dial :
    ¬ ∀ (kind : Kind) (made : Int) (earlier : List Need) (sync n : Need),
      (∀ m ∈ earlier ++ [n], 0 ≤ m.now) → (earlier ++ [n]).Pairwise (fun m m' => m.now ≤ m'.now) →
      (after kind made earlier).since.head? = some sync →
      24 < Item.hoursPassed sync.now n.now → Item.hoursPassed sync.now n.now < 255 →
      (after kind made (earlier ++ [n])).item.dailyRange = max n.range Item.minRange := by
  intro h
  have hsync := h .uint 900000 [⟨300, 900000⟩] ⟨300, 900000⟩ ⟨100, 990000⟩ (by decide) (by decide)
    rfl (by decide) (by decide)
  exact absurd hsync (by decide)

end Tracked

end HistoryCache
