import HistoryCache.Cache.Allocation

/-!
# Copies of values

To hold a value is two things: to charge for it and count its texts (`Cache.takeValue`), which may fail
and says nothing of the copy, and to copy it with references in the place of the texts (`Value.copy`),
which cannot (`Cache.holdValue_eq`).  A copy of the copy, with the texts in it again, is the value.

* `Record.toRecord_copy`: the copy of a copied record is the record.
* `Cache.holdValue_ok`: what is kept of a record reads as that record.
-/

namespace HistoryCache

/-! ## There and back -/

/-- A log entry with references in the place of its texts. -/
def LogEntry.copy (entry : LogEntry) : CachedLog where
  timestamp := entry.timestamp
  eventId := entry.eventId
  severity := entry.severity
  source := entry.source.map Handle.mk
  value := ⟨entry.value⟩

/-- A value with references in the place of its texts. -/
def Value.copy : Value → CachedValue
  | .float bits => .float bits
  | .uint n => .uint n
  | .str s => .str ⟨s⟩
  | .text s => .text ⟨s⟩
  | .log entry => .log entry.copy

theorem Value.toValue_copy (v : Value) : v.copy.toValue = v := by
  cases v with
  | float | uint | str | text => rfl
  | log entry =>
    obtain ⟨_, _, _, source, value⟩ := entry
    cases source <;> rfl

/-- A record with references in the place of its texts. -/
def Record.copy (r : Record) : CachedRecord := ⟨r.time, r.value.copy⟩

theorem Record.toRecord_copy (r : Record) : r.copy.toRecord = r := by
  rw [copy, CachedRecord.toRecord, Value.toValue_copy]

namespace Cache

variable {c c' : Cache} {now : Int} {source : ItemId}

/-! ## What is taken for a value -/

/-- Takes references to texts, all or none. -/
def takeTexts (now : Int) (source : ItemId) :
    List String → Cache → Except CacheFailure Unit × Cache
  | [], c => (.ok (), c)
  | s :: rest, c =>
    match c.holdText now source s with
    | (.error e, c) => (.error e, c)
    | (.ok handle, c) =>
      match takeTexts now source rest c with
      | (.ok (), c) => (.ok (), c)
      | (.error e, c) => (.error e, (c.releaseText handle).2)

/-- Takes what a value needs to be kept, whatever becomes of the references. -/
def takeValue (c : Cache) (now : Int) (source : ItemId) (v : Value) :
    Except CacheFailure Unit × Cache :=
  match v with
  | .log entry =>
    match c.charge now source LogEntry.bytes with
    | (.error e, c) => (.error e, c)
    | (.ok (), c) =>
      match takeTexts now source (Value.log entry).texts c with
      | (.ok (), c) => (.ok (), c)
      | (.error e, c) => (.error e, c.refund LogEntry.bytes)
  | v => takeTexts now source v.texts c

/-- A reference is to the text that it was taken for. -/
theorem holdText_ok {s : String} {handle : Handle} (h : c.holdText now source s = (.ok handle, c')) :
    handle = ⟨s⟩ := by
  rw [holdText, StringPool.lookup?] at h
  split at h
  · next heq =>
    split at heq
    · cases heq
      cases h
      rfl
    · cases heq
  · split at h
    · cases h
      rfl
    · cases h

theorem takeTexts_singleton (s : String) :
    takeTexts now source [s] c =
      ((c.holdText now source s).1.map fun _ => (), (c.holdText now source s).2) := by
  rw [takeTexts]
  generalize c.holdText now source s = held
  obtain ⟨e | handle, c₁⟩ := held <;> rfl

/-- The entry is copied if its texts are held. -/
theorem holdEntry_eq (c : Cache) (now : Int) (source : ItemId) (entry : LogEntry) :
    c.holdEntry now source entry =
      ((takeTexts now source (Value.log entry).texts c).1.map fun () => entry.copy,
        (takeTexts now source (Value.log entry).texts c).2) := by
  obtain ⟨timestamp, eventId, severity, origin, value⟩ := entry
  cases origin with
  | none =>
    show c.holdEntry now source ⟨timestamp, eventId, severity, none, value⟩ =
      ((takeTexts now source [value] c).1.map _, (takeTexts now source [value] c).2)
    rw [takeTexts_singleton, holdEntry, holdText?]
    simp only []
    generalize hvalue : c.holdText now source value = held
    obtain ⟨e | handle, c₁⟩ := held
    · rfl
    · rw [holdText_ok hvalue]
      rfl
  | some s =>
    show c.holdEntry now source ⟨timestamp, eventId, severity, some s, value⟩ =
      ((takeTexts now source [s, value] c).1.map _, (takeTexts now source [s, value] c).2)
    rw [takeTexts, holdEntry, holdText?]
    simp only []
    generalize hsource : c.holdText now source s = held
    obtain ⟨e | handle, c₁⟩ := held
    · rfl
    rw [holdText_ok hsource]
    simp only [Except.map, takeTexts_singleton]
    generalize hvalue : c₁.holdText now source value = held'
    obtain ⟨e | handle', c₂⟩ := held'
    · rfl
    · rw [holdText_ok hvalue]
      rfl

/-- **To hold a value** is to take what it needs and to copy it. -/
theorem holdValue_eq (c : Cache) (now : Int) (source : ItemId) (v : Value) :
    c.holdValue now source v =
      ((c.takeValue now source v).1.map fun () => v.copy, (c.takeValue now source v).2) := by
  have htext : ∀ (s : String) (f : Handle → CachedValue),
      ((c.holdText now source s).1.map f, (c.holdText now source s).2) =
        ((takeTexts now source [s] c).1.map fun () => f ⟨s⟩, (takeTexts now source [s] c).2) := by
    intro s f
    rw [takeTexts_singleton]
    generalize hheld : c.holdText now source s = held
    obtain ⟨e | handle, c₁⟩ := held
    · rfl
    · rw [holdText_ok hheld]
      rfl
  cases v with
  | float | uint => rfl
  | str s => exact htext s .str
  | text s => exact htext s .text
  | log entry =>
    rw [holdValue, takeValue]
    generalize c.charge now source LogEntry.bytes = charged
    obtain ⟨e | ⟨⟨⟩⟩, c₁⟩ := charged
    · rfl
    simp only [holdEntry_eq]
    generalize takeTexts now source (Value.log entry).texts c₁ = held
    obtain ⟨e | ⟨⟨⟩⟩, c₂⟩ := held <;> rfl

/-- What is kept of a record reads as that record. -/
theorem holdValue_ok {r : Record} {value : CachedValue}
    (h : c.holdValue now source r.value = (.ok value, c')) :
    c.takeValue now source r.value = (.ok (), c') ∧ CachedRecord.toRecord ⟨r.time, value⟩ = r := by
  rw [holdValue_eq] at h
  generalize c.takeValue now source r.value = taken at h
  obtain ⟨e | ⟨⟨⟩⟩, c₁⟩ := taken
  · cases h
  · cases h
    exact ⟨rfl, r.toRecord_copy⟩

theorem holdValue_failed {v : Value} {e : CacheFailure} (h : c.holdValue now source v = (.error e, c')) :
    c.takeValue now source v = (.error e, c') := by
  rw [holdValue_eq] at h
  generalize c.takeValue now source v = taken at h
  obtain ⟨e | ⟨⟨⟩⟩, c₁⟩ := taken
  · cases h
    rfl
  · cases h

end Cache

end HistoryCache
