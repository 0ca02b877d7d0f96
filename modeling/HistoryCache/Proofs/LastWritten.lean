import HistoryCache.Proofs.Stored
import Mathlib

/-!
# What is written last

A store is written to, its reads and writes are made to fail and to succeed again, and it is read
(`Store.Change`).  What it answers then is decided by the row of records that reached it
(`Store.arrived`): of those of an item, a kind and a time the last one is there, and the others are
not (`Store.getElem?_run`).

A range is cut at the start of a second, so what counts is the second under which a time is filed
(`Timestamp.filed`), which is its own unless its nanoseconds are negative.

* `Store.answers_lastWritten`: the answers to both kinds of questions, and an append that fails.
* `Store.answer_of_nonneg`: the range is one of seconds, if no nanoseconds are negative.
-/

namespace HistoryCache

/-- The second under which the store files a time: one that precedes the start of its own second
counts for the second before. -/
def Timestamp.filed (t : Timestamp) : Int := if t.ns < 0 then t.sec - 1 else t.sec

theorem Timestamp.filed_of_nonneg {t : Timestamp} (h : 0 ≤ t.ns) : t.filed = t.sec :=
  if_neg (Int.not_lt.2 h)

theorem Series.inRange_iff_filed {after upTo : Int} {t : Timestamp} :
    InRange after upTo t ↔ after < t.filed ∧ t.filed ≤ upTo := by
  rw [InRange, Timestamp.le_def, Timestamp.lt_def, Timestamp.filed]
  show after < upTo ∧ (after + 1 < t.sec ∨ after + 1 = t.sec ∧ 0 ≤ t.ns) ∧
    (t.sec < upTo + 1 ∨ t.sec = upTo + 1 ∧ t.ns < 0) ↔ _
  split <;> omega

theorem Series.mem_range {s : Series} {after upTo : Int} {r : Record} :
    r ∈ s.range after upTo ↔
      s[r.time]? = some r.value ∧ after < r.time.filed ∧ r.time.filed ≤ upTo := by
  rw [range, List.mem_filter, mem_records, decide_eq_true_iff, inRange_iff_filed]

namespace Store

/-! ## The row of records -/

/-- The value of the last record of an item, a kind and a time in a row of records. -/
def lastWritten (row : List ItemRecord) (item : ItemId) (kind : Kind) (t : Timestamp) :
    Option Value :=
  row.reverse.findSome? fun w =>
    if w.item = item ∧ w.record.value.kind = kind ∧ w.record.time = t then some w.record.value
    else none

variable {item : ItemId} {kind : Kind} {t : Timestamp} {row : List ItemRecord}

theorem lastWritten_append (xs ys : List ItemRecord) :
    lastWritten (xs ++ ys) item kind t =
      (lastWritten ys item kind t).or (lastWritten xs item kind t) := by
  rw [lastWritten, List.reverse_append, List.findSome?_append]
  rfl

/-- What was written last was written. -/
theorem exists_of_lastWritten {v : Value} (h : lastWritten row item kind t = some v) :
    (⟨item, ⟨t, v⟩⟩ : ItemRecord) ∈ row ∧ v.kind = kind := by
  obtain ⟨w, hw, hvalue⟩ := List.exists_of_findSome?_eq_some h
  split at hvalue
  · next hkey =>
    obtain ⟨rfl, rfl, rfl⟩ := hkey
    cases hvalue
    exact ⟨List.mem_reverse.1 hw, rfl⟩
  · cases hvalue

theorem getElem?_put (s : Store) (w : ItemRecord) :
    ((s.put w).seriesOf item kind)[t]? =
      (lastWritten [w] item kind t).or (s.seriesOf item kind)[t]? := by
  rw [seriesOf_put, lastWritten, List.reverse_singleton, List.findSome?_singleton]
  by_cases hkey : w.item = item ∧ w.record.value.kind = kind
  · rw [if_pos hkey, Std.ExtTreeMap.getElem?_insert]
    by_cases htime : w.record.time = t
    · rw [if_pos (Std.LawfulEqCmp.compare_eq_iff_eq.2 htime), if_pos ⟨hkey.1, hkey.2, htime⟩]
      rfl
    · rw [if_neg (mt Std.LawfulEqCmp.compare_eq_iff_eq.1 htime), if_neg fun h => htime h.2.2]
      rfl
  · rw [if_neg hkey, if_neg fun h => hkey ⟨h.1, h.2.1⟩]
    rfl

/-- Of what is kept the last one stays. -/
theorem getElem?_puts (s : Store) (row : List ItemRecord) :
    ((row.foldl put s).seriesOf item kind)[t]? =
      (lastWritten row item kind t).or (s.seriesOf item kind)[t]? := by
  induction row generalizing s with
  | nil => rfl
  | cons w row ih =>
    rw [List.foldl_cons, ih, getElem?_put, ← Option.or_assoc, ← lastWritten_append,
      List.singleton_append]

/-! ## Changes -/

/-- What may be done to a store. -/
inductive Change where
  | insert (item : ItemId) (records : List Record)
  | append (writes : List ItemRecord)
  | failReads (fail : Bool)
  | failWrites (fail : Bool)
  | read (question : StoreRead)
  | clearReads

def change (s : Store) : Change → Store
  | .insert item records => s.insert item records
  | .append writes => (s.append writes).2
  | .failReads fail => { s with readsFail := fail }
  | .failWrites fail => { s with writesFail := fail }
  | .read question => (s.read question).2
  | .clearReads => s.clearReads

/-- The records that a change brings. -/
def brings (s : Store) : Change → List ItemRecord
  | .insert item records => records.map fun r => ⟨item, r⟩
  | .append writes => if s.writesFail then [] else writes
  | .failReads _ | .failWrites _ | .read _ | .clearReads => []

/-- The store after one change after another. -/
def run (s : Store) (changes : List Change) : Store := changes.foldl change s

/-- The records that one change after another brings. -/
def arrived (s : Store) : List Change → List ItemRecord
  | [] => []
  | c :: changes => s.brings c ++ (s.change c).arrived changes

theorem run_concat (s : Store) (changes : List Change) (c : Change) :
    s.run (changes ++ [c]) = (s.run changes).change c := by
  rw [run, List.foldl_append]
  rfl

theorem insert_eq_puts (s : Store) (item : ItemId) (records : List Record) :
    s.insert item records = (records.map fun r => ⟨item, r⟩).foldl put s := by
  rw [List.foldl_map]
  rfl

/-- A change leaves what it brings, and what was there before for the other times. -/
theorem getElem?_change (s : Store) (c : Change) :
    ((s.change c).seriesOf item kind)[t]? =
      (lastWritten (s.brings c) item kind t).or (s.seriesOf item kind)[t]? := by
  cases c with
  | insert id records => rw [change, insert_eq_puts]; exact getElem?_puts s _
  | append writes =>
    rw [change, brings, append]
    split
    · rfl
    · exact getElem?_puts s writes
  | read question => rw [change, seriesOf, series_read]; rfl
  | failReads _ | failWrites _ | clearReads => rfl

/-- **What is written last stays.** -/
theorem getElem?_run (s : Store) (changes : List Change) :
    ((s.run changes).seriesOf item kind)[t]? =
      (lastWritten (s.arrived changes) item kind t).or (s.seriesOf item kind)[t]? := by
  induction changes generalizing s with
  | nil => rfl
  | cons c changes ih =>
    rw [run, List.foldl_cons, arrived, lastWritten_append, Option.or_assoc, ← getElem?_change]
    exact ih (s.change c)

theorem arrange_puts (s : Store) (row : List ItemRecord) :
    (row.foldl put s).arrange = s.arrange := by
  induction row generalizing s with
  | nil => rfl
  | cons w row ih => exact ih (s.put w)

theorem arrange_change (s : Store) (c : Change) : (s.change c).arrange = s.arrange := by
  cases c with
  | insert id records => rw [change, insert_eq_puts]; exact arrange_puts s _
  | append writes =>
    rw [change, append]
    split
    · rfl
    · exact arrange_puts s writes
  | read question => exact arrange_read s question
  | failReads _ | failWrites _ | clearReads => rfl

theorem arrange_run (s : Store) (changes : List Change) : (s.run changes).arrange = s.arrange := by
  induction changes generalizing s with
  | nil => rfl
  | cons c changes ih => exact (ih (s.change c)).trans (arrange_change s c)

/-! ## Answers -/

/-- The records of a range after some changes: those that were written last and are filed under its
seconds. -/
theorem mem_range_run (changes : List Change) {after upTo : Int} {r : Record} :
    r ∈ ((run {} changes).seriesOf item kind).range after upTo ↔
      lastWritten (arrived {} changes) item kind r.time = some r.value ∧
        after < r.time.filed ∧ r.time.filed ≤ upTo := by
  have hnone : (({} : Store).seriesOf item kind)[r.time]? = none := by
    rw [seriesOf, Std.ExtTreeMap.getD_empty]
    exact Std.ExtTreeMap.getElem?_empty
  rw [Series.mem_range, getElem?_run, hnone, Option.or_none]

/-- A read answers with what it finds, unless reads are made to fail. -/
theorem read_run (changes : List Change) (question : StoreRead) :
    ((run {} changes).read question).1 =
      if (run {} changes).readsFail then .error (.unavailable "reads disabled")
      else .ok ((run {} changes).find question) := by
  rw [read]
  split
  · rfl
  · simp only []
    rw [arrange_run]
    rfl

/-- **The store answers with what was written last.**  Whatever was done to a store, the records of
a range are those that were written last for their times and are filed under its seconds.  A
question by time is answered by all of them in the order of time, and one by count by the newest of
them, newest first.  An append that fails changes nothing. -/
theorem answers_lastWritten (changes : List Change) (item : ItemId) (kind : Kind)
    (after upTo : Int) :
    (∃ found, Rising found ∧
      (∀ r, r ∈ found ↔ lastWritten (arrived {} changes) item kind r.time = some r.value ∧
        after < r.time.filed ∧ r.time.filed ≤ upTo) ∧
      ((run {} changes).read (.byTime item kind after upTo)).1 =
        (if (run {} changes).readsFail then .error (.unavailable "reads disabled")
        else .ok found) ∧
      ∀ count, ((run {} changes).read (.byCount item kind after count upTo)).1 =
        if (run {} changes).readsFail then .error (.unavailable "reads disabled")
        else .ok (found.reverse.take count)) ∧
    ∀ writes, (run {} changes).append writes =
      if (run {} changes).writesFail then
        (.error (.writeFailed "writes disabled"), run {} changes)
      else (.ok (), run {} (changes ++ [.append writes])) := by
  refine ⟨⟨((run {} changes).seriesOf item kind).range after upTo, ?_, fun r => ?_,
    read_run changes _, fun count => read_run changes _⟩, fun writes => ?_⟩
  · exact (Series.rising_records _).filter _
  · exact mem_range_run changes
  · rw [run_concat, change, append]
    split <;> rfl

/-- A record that precedes the start of its second is not among the records of that second. -/
theorem not_answers_by_second :
    ¬ ∀ (changes : List Change) (item : ItemId) (kind : Kind) (after upTo : Int)
      (answer : List Record),
      ((run {} changes).read (.byTime item kind after upTo)).1 = .ok answer →
        ∀ r, r ∈ answer ↔ lastWritten (arrived {} changes) item kind r.time = some r.value ∧
          after < r.sec ∧ r.sec ≤ upTo := by
  intro hcontract
  have hanswer : ((run {} [.insert 7 [⟨⟨10, -1⟩, .uint 1⟩]]).read (.byTime 7 .uint 9 10)).1 =
      .ok [] := by cbv
  have hmem := (hcontract _ 7 .uint 9 10 [] hanswer ⟨⟨10, -1⟩, .uint 1⟩).2
    ⟨by cbv, by decide, by decide⟩
  exact List.not_mem_nil hmem

/-- **With times inside their seconds the bounds of a range are seconds.** -/
theorem answer_of_nonneg {changes : List Change} {after upTo : Int} {answer : List Record}
    (hns : ∀ w ∈ arrived {} changes, 0 ≤ w.record.time.ns)
    (hanswer : ((run {} changes).read (.byTime item kind after upTo)).1 = .ok answer) :
    Rising answer ∧
      ∀ r, r ∈ answer ↔ lastWritten (arrived {} changes) item kind r.time = some r.value ∧
        after < r.sec ∧ r.sec ≤ upTo := by
  rw [read_run] at hanswer
  split at hanswer
  · cases hanswer
  · cases hanswer
    refine ⟨(Series.rising_records _).filter _, fun r => (mem_range_run changes).trans ?_⟩
    refine and_congr_right fun hlast => ?_
    rw [Timestamp.filed_of_nonneg (hns _ (exists_of_lastWritten hlast).1)]

end Store

end HistoryCache
