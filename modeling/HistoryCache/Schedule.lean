import HistoryCache.Service

/-!
# Schedules

Operations of others that happen while a request reads the store.  A schedule says at which read,
and whether before the store has computed its answer or after, operations are done; reads are
numbered from 1 in the order in which they are made, those of scheduled operations among them.
What happens while a batch holds the cache is not interrupted.

Every scheduled operation happens at most once, so operations that interrupt each other do so to a
depth that is bounded by the number of interruptions (`Schedule.backend`).
-/

namespace HistoryCache

/-- When an interruption happens, seen from the answering of the store. -/
inductive Moment where
  | before
  | after
  deriving DecidableEq, Inhabited

/-- Operations that happen at a read. -/
structure Interruption where
  read : Nat
  moment : Moment
  ops : List Operation
  deriving DecidableEq

/-- An operation that was done at a read: the number of the read, the places of the interruption and
of the operation in the schedule, the answer, and the state after it. -/
structure Interlude where
  read : Nat
  interruption : Nat
  position : Nat
  answer : Answer
  snapshot : Option Snapshot

/-- A schedule that is under way. -/
structure Schedule where
  /-- The number of reads so far. -/
  reads : Nat := 0
  /-- What was done, the last first. -/
  done : List Interlude := []

namespace Schedule

/-- The reads are counted and not interrupted. -/
def uninterrupted : Backend Schedule := fun question (s, x) =>
  Service.plain question (s, { x with reads := x.reads + 1 })

/-- The interruptions of a moment, with their places. -/
def due (plan : List Interruption) (read : Nat) (moment : Moment) : List (Nat × Interruption) :=
  (plan.zipIdx.filter fun (i, _) => decide (i.read = read ∧ i.moment = moment)).map fun (i, n) =>
    (n, i)

/-- Does the operations of an interruption, from a position on, and notes what they answer. -/
def interlude (backend : Backend Schedule) (read interruption : Nat) :
    Nat → List Operation → Service × Schedule → Service × Schedule
  | _, [], s => s
  | position, op :: ops, s =>
    let (answer, s, x) := Service.execute backend uninterrupted op s
    let (snapshot, s) := s.observe
    let x := { x with done := ⟨read, interruption, position, answer, snapshot⟩ :: x.done }
    interlude backend read interruption (position + 1) ops (s, x)

/-- Answers questions with the interruptions of a plan.  An interruption is at one read only, and
the operations of an interruption make later reads only, so `depth` interruptions can be inside
each other and no more if there are so many. -/
def backend (plan : List Interruption) : (depth : Nat) → Backend Schedule
  | 0 => uninterrupted
  | depth + 1 => fun question (s, x) =>
    let read := x.reads + 1
    let run (moment : Moment) (s : Service × Schedule) : Service × Schedule :=
      (due plan read moment).foldl
        (fun s (n, i) => interlude (backend plan depth) read n 0 i.ops s) s
    let (s, x) := run .before (s, { x with reads := read })
    let (answer, s, x) := Service.plain question (s, x)
    (answer, run .after (s, x))

/-- What an operation brought about. -/
structure Outcome where
  answer : Answer
  snapshot : Option Snapshot
  /-- The reads that the store answered, in their order. -/
  reads : List StoreRead
  /-- What others did meanwhile, in the order in which it was done. -/
  interludes : List Interlude
  events : List Event

/-- Does an operation under a plan. -/
def step (plan : List Interruption) (op : Operation) (s : Service × Schedule) :
    Outcome × Service × Schedule :=
  let (answer, s, x) := Service.execute (backend plan plan.length) uninterrupted op s
  let (snapshot, s) := s.observe
  let (events, telemetry) := s.cache.telemetry.takeEvents
  ({ answer := answer
     snapshot := snapshot
     reads := s.store.reads.reverse
     interludes := x.done.reverse
     events := events },
    { s with store := s.store.clearReads, cache := { s.cache with telemetry := telemetry } },
    { x with done := [] })

/-- Does operations one after the other under a plan. -/
def run (plan : List Interruption) : List Operation → Service × Schedule → List Outcome
  | [], _ => []
  | op :: ops, s =>
    let (outcome, s) := step plan op s
    outcome :: run plan ops s

end Schedule

end HistoryCache
