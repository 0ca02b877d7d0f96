import HistoryCache.Reading

/-!
# A history store in memory

The records of every item and kind in the order of their times, one for each time: what is written
last stays.  Reads and writes can be made to fail, and the reads that were answered are kept.

The bounds of a range are seconds, and the records of a range are cut at the start of a second, so
a record that precedes the start of its own second (its nanoseconds are negative) counts for the
second before.
-/

namespace HistoryCache

/-- What a series of records belongs to. -/
structure SeriesKey where
  item : ItemId
  kind : Kind
  deriving DecidableEq, Inhabited

namespace SeriesKey

instance : Ord SeriesKey := ⟨compareLex (compareOn item) (compareOn kind)⟩

instance : Std.TransOrd SeriesKey :=
  inferInstanceAs (Std.TransCmp (compareLex (compareOn item) (compareOn kind)))

theorem compare_def (a b : SeriesKey) :
    compare a b = (compare a.item b.item).then (compare a.kind b.kind) := rfl

instance : Std.LawfulEqOrd SeriesKey where
  eq_of_compare {a b} h := by
    rw [compare_def, Ordering.then_eq_eq] at h
    cases a; cases b
    simpa using h

end SeriesKey

/-- Values by their times. -/
abbrev Series := Std.ExtTreeMap Timestamp Value compare

namespace Series

/-- The records from the oldest to the newest. -/
def records (s : Series) : List Record := s.toList.map fun (time, value) => ⟨time, value⟩

/-- Whether a time falls into the seconds after `after` and up to `upTo`. -/
def InRange (after upTo : Int) (t : Timestamp) : Prop :=
  after < upTo ∧ ⟨after + 1, 0⟩ ≤ t ∧ t < ⟨upTo + 1, 0⟩

instance (after upTo : Int) (t : Timestamp) : Decidable (InRange after upTo t) :=
  inferInstanceAs (Decidable (_ ∧ _ ∧ _))

/-- The records of a range, from the oldest to the newest. -/
def range (s : Series) (after upTo : Int) : List Record :=
  s.records.filter fun r => decide (InRange after upTo r.time)

end Series

/-- A history store. -/
structure Store where
  series : Std.ExtTreeMap SeriesKey Series compare := ∅
  readsFail : Bool := false
  writesFail : Bool := false
  /-- The reads that were answered, the last one first. -/
  reads : List StoreRead := []
  /-- The order in which the records of an answer come, which may change with every read. -/
  arrange : Nat → List Record → List Record := fun _ records => records

namespace Store

/-- The series of an item and kind, which is empty until something is written to it. -/
def seriesOf (s : Store) (item : ItemId) (kind : Kind) : Series := s.series.getD ⟨item, kind⟩ ∅

/-- Keeps a record, in the place of one of the same time. -/
def put (s : Store) (w : ItemRecord) : Store :=
  let kind := w.record.value.kind
  let series := (s.seriesOf w.item kind).insert w.record.time w.record.value
  { s with series := s.series.insert ⟨w.item, kind⟩ series }

/-- Keeps the records of an item, whether writes fail or not. -/
def insert (s : Store) (item : ItemId) (records : List Record) : Store :=
  records.foldl (fun s r => s.put ⟨item, r⟩) s

/-- A store that holds some records of one item. -/
def ofRecords (item : ItemId) (records : List Record) : Store := insert {} item records

/-- Writes records, all of them or none. -/
def append (s : Store) (writes : List ItemRecord) : Except StoreFailure Unit × Store :=
  if s.writesFail then (.error (.writeFailed "writes disabled"), s)
  else (.ok (), writes.foldl put s)

/-- The number of records of an item and kind. -/
def length (s : Store) (item : ItemId) (kind : Kind) : Nat := (s.seriesOf item kind).size

/-- The records that answer a question, by time from the oldest, by count from the newest. -/
def find (s : Store) : StoreRead → List Record
  | .byTime item kind after upTo => (s.seriesOf item kind).range after upTo
  | .byCount item kind after count upTo =>
    ((s.seriesOf item kind).range after upTo).reverse.take count

/-- Answers a question. -/
def read (s : Store) (question : StoreRead) : Except StoreFailure (List Record) × Store :=
  if s.readsFail then (.error (.unavailable "reads disabled"), s)
  else
    let s := { s with reads := question :: s.reads }
    (.ok (s.arrange s.reads.length (s.find question)), s)

/-- Forgets the reads that were answered. -/
def clearReads (s : Store) : Store := { s with reads := [] }

end Store

end HistoryCache
