import HistoryCache.Reading

/-!
# Requests

A request asks for an item's records up to a time, either all of a window of seconds or a number of
the newest.  A store decides by whole seconds and may split the oldest second of a counted answer,
so `Request.countBack` asks for one record more than it needs: a full answer means that its oldest
second may be incomplete, and that second is read again as a whole.  There is no count after the largest,
with which nothing is asked for.  `Request.direct` is the answer that takes no cache.
-/

namespace HistoryCache

/-- Records of an item at or before `upTo`: those of the last `seconds` seconds, or the newest
`count`.  With `count = 0` all of the window are wanted; with a count, `seconds = 0` means that
there is no window. -/
structure Request where
  item : ItemId
  kind : Kind
  seconds : Int
  count : Nat
  upTo : Timestamp
  deriving DecidableEq, Inhabited

namespace Request

/-- The newest record at or before a time. -/
def latest (item : ItemId) (kind : Kind) (upTo : Timestamp) : Request where
  item := item
  kind := kind
  seconds := upTo.sec
  count := 1
  upTo := upTo

/-- The last second before the window. -/
def edge (q : Request) : Int := wrap (q.upTo.sec - q.seconds)

/-- The second that the cached history has to go back to for the window. -/
def windowStart (q : Request) : Int := max 0 q.edge

/-- The second below which a counted request does not look. -/
def countStart (q : Request) : Int := if q.seconds = 0 then 0 else q.windowStart

/-- The exclusive bound for a range that starts with a second; nothing is stored before second 1. -/
def exclusive (start : Int) : Int := if 0 < start then start - 1 else 0

/-- Reads a range of the item. -/
def readRange (q : Request) (after upTo : Int) : Reading (List Record) :=
  .read (.byTime q.item q.kind after upTo)

/-- The second of the oldest record, if there is one. -/
def oldestSecond? (records : List Record) : Option Int :=
  (Record.newestFirst records).getLast?.map Record.sec

/-- The number of records at or before the requested time. -/
def reached (q : Request) (records : List Record) : Nat :=
  records.countP fun r => decide (r.time ≤ q.upTo)

/-- The number of rounds of a counted reading that may bring nothing. -/
def maxIdleRounds : Nat := 1000000

/-- Goes back from second `upTo`, with `found` in hand, until `count` records are at or before the
requested time or nothing is left above `after`.  `needed` records are still wanted.

The bound goes down with every round, or else less is wanted, unless the store has answered from
outside the range.  Such a round is made again, for the store may have changed meanwhile, but not more
than `idle` times. -/
def countBackFrom (q : Request) (after : Int) (count : Nat) (idle : Nat) (found : List Record)
    (needed : Nat) (upTo : Int) : Reading (List Record) :=
  .ask (.byCount q.item q.kind after (following needed) upTo) fun batch =>
    if batch.length ≤ needed then .done (found ++ batch)
    else
      let oldest := (oldestSecond? batch).getD upTo
      let whole := (Record.newestFirst batch).filter fun r => decide (r.sec ≠ oldest)
      .ask (.byTime q.item q.kind (oldest - 1) oldest) fun second =>
        let all := found ++ whole ++ second
        let missing := count - q.reached all
        if count ≤ q.reached all ∨ oldest - 1 ≤ after then .done all
        else if oldest - 1 < upTo ∨ oldest - 1 = upTo ∧ missing < needed then
          q.countBackFrom after count idle all missing (oldest - 1)
        else
          match idle with
          | 0 => .done all
          | idle + 1 => q.countBackFrom after count idle all missing (oldest - 1)
  termination_by (idle, (upTo - after).toNat, needed)
  decreasing_by
    · rename_i h₁ h₂
      rw [not_or] at h₁
      rcases h₂ with h₂ | ⟨h₂, h₃⟩
      · exact Prod.Lex.right _ (Prod.Lex.left _ _ (by omega))
      · rw [h₂]; exact Prod.Lex.right _ (Prod.Lex.right _ h₃)
    · exact Prod.Lex.left _ _ (Nat.lt_succ_self _)

/-- At least `count` records at or before the requested time, in whole seconds, of the range from
second `start` to second `upTo`; fewer only if the range holds no more. -/
def countBack (q : Request) (start : Int) (count : Nat) (upTo : Int) : Reading (List Record) :=
  q.countBackFrom (exclusive start) count maxIdleRounds [] count upTo

/-- The records that are wanted, read from the store with no cache in between, newest first. -/
def direct (q : Request) : Reading (List Record) := do
  let records ←
    if q.count = 0 then q.readRange q.windowStart q.upTo.sec
    else
      let start := if q.seconds = 0 then 0 else wrap (q.upTo.sec - q.seconds + 1)
      q.countBack start q.count q.upTo.sec
  let records := (Record.newestFirst records).filter fun r => decide (r.time ≤ q.upTo)
  return if q.count = 0 then records else records.take q.count

end Request

end HistoryCache
