import HistoryCache.Failure

/-!
# Reading the history store

What the cache wants of a store is a tree of questions: a `Reading` is done, or asks for records and
goes on with the answer.  The tree says nothing of who answers, when, or in what order the records
of one answer come: `Reading.perform` puts the questions to a store at rest, or to one that others write
to in between.
-/

namespace HistoryCache

/-- A question to a history store.  Of the two seconds that bound the range, the first is exclusive
and the second is inclusive. -/
inductive StoreRead where
  /-- All records of the range. -/
  | byTime (item : ItemId) (kind : Kind) (after upTo : Int)
  /-- The newest records of the range, not more than `count`. -/
  | byCount (item : ItemId) (kind : Kind) (after : Int) (count : Nat) (upTo : Int)
  deriving DecidableEq, Inhabited

/-- A result that takes some reads of the store. -/
inductive Reading (α : Type) where
  | done (a : α)
  | ask (question : StoreRead) (next : List Record → Reading α)

namespace Reading

variable {α β σ : Type}

/-- Goes on with the result of a reading. -/
def bind : Reading α → (α → Reading β) → Reading β
  | done a, f => f a
  | ask question next, f => ask question fun records => (next records).bind f

instance : Monad Reading where
  pure := done
  bind := bind

/-- The answer to one question. -/
def read (question : StoreRead) : Reading (List Record) := ask question done

/-- Puts the questions to whoever holds the state, which the answering may change.  The first
failure ends the reading. -/
def perform (answer : StoreRead → σ → Except StoreFailure (List Record) × σ) :
    Reading α → σ → Except StoreFailure α × σ
  | done a, s => (.ok a, s)
  | ask question next, s =>
    match answer question s with
    | (.ok records, s) => (next records).perform answer s
    | (.error e, s) => (.error e, s)

end Reading

end HistoryCache
