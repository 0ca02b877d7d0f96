import HistoryCache.Cache.Serve

/-!
# Operations and answers

What can be done with a cache, the store behind it and the clock, and what comes back.
-/

namespace HistoryCache

/-- Operations on a handle, in a batch or by themselves. -/
inductive Call where
  | get (q : Request)
  /-- The newest record at or before a time. -/
  | last (item : ItemId) (kind : Kind) (upTo : Timestamp)
  /-- Writes records to the store and to the cached items. -/
  | add (writes : List ItemRecord)
  | remove (items : List ItemId)
  | reset
  | stats
  | memory
  | items
  /-- The largest items. -/
  | top (n : Nat)
  deriving DecidableEq

/-- Operations on the store and the clock, which need no handle. -/
inductive Outside where
  | insert (item : ItemId) (records : List Record)
  | length (item : ItemId) (kind : Kind)
  | failReads (fail : Bool)
  | failWrites (fail : Bool)
  | advance (seconds : Int)
  | setNow (now : Int)
  /-- Says what the clock is to show to the eviction rounds to come. -/
  | setLooks (looks : List Looks)
  /-- The text of the metrics. -/
  | metrics
  deriving DecidableEq

/-- Operations inside a batch. -/
inductive BatchStep where
  | call (c : Call)
  | outside (o : Outside)
  deriving DecidableEq

/-- Operations.  Handles are known by the order in which they were made. -/
inductive Operation where
  | outside (o : Outside)
  | call (handle : Nat) (c : Call)
  /-- Operations on one handle with nothing of others in between. -/
  | batch (handle : Nat) (steps : List BatchStep)
  /-- A new handle on the same cache. -/
  | attach (handle : Nat)
  | enable (handle : Nat)
  | disable (handle : Nat)
  | isEnabled (handle : Nat)
  | describe (handle : Nat)
  | config (handle : Nat)
  /-- Empties the cache and gives the handle up. -/
  | destroy (handle : Nat)
  deriving DecidableEq

/-- What is told of the state after an operation. -/
structure Snapshot where
  stats : CacheStats
  budget : Budget
  items : List ItemStats
  deriving DecidableEq

/-- What an operation answers. -/
inductive Reply where
  | done
  | number (n : Nat)
  | time (t : Int)
  | flag (b : Bool)
  | text (s : String)
  | records (result : Except Failure (List Record))
  | record (result : Except Failure (Option Record))
  | written (result : Except Failure Unit)
  | stats (result : Except Failure CacheStats)
  | memory (result : Except Failure Budget)
  | items (stats : List ItemStats)
  | config (c : Config)
  /-- There is no such handle. -/
  | noHandle

/-- What an operation answers; a batch has an answer and the state after it for each of its
steps. -/
inductive Answer where
  | reply (r : Reply)
  | batch (steps : List (Reply × Option Snapshot))

end HistoryCache
