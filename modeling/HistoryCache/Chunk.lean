import HistoryCache.Cached

/-!
# Chunks

A chunk is a row of slots for records.  Records enter at the two ends of an item's history, so the
slots in use are contiguous: below them there is room for older records, above them for newer ones.
-/

namespace HistoryCache

/-- A row of slots.  Those from `start` on and below `stop` hold records, from the oldest to the
newest; the others are free. -/
structure Chunk where
  start : Nat
  stop : Nat
  slots : Array (Option CachedRecord)
  deriving DecidableEq, Inhabited

namespace Chunk

/-- Bytes of a slot. -/
def slotBytes : Nat := 40

/-- Bytes of a chunk beside its slots. -/
def headerBytes : Nat := 64

/-- The smallest number of slots. -/
def minCapacity : Nat := 2

/-- The largest number of slots, which takes a chunk to 64 KiB. -/
def maxCapacity : Nat := (64 * 1024 - headerBytes) / slotBytes + 1

/-- Bytes of a chunk with so many slots. -/
def bytes (capacity : Nat) : Nat := headerBytes + capacity * slotBytes

/-- A chunk that is to be filled from its high end. -/
def forOlder (capacity : Nat) : Chunk := ⟨capacity, capacity, Array.replicate capacity none⟩

/-- A chunk that is to be filled from its low end, with its first slot taken. -/
def forNewer (capacity : Nat) : Chunk := ⟨0, 1, Array.replicate capacity none⟩

/-- The number of slots. -/
def capacity (c : Chunk) : Nat := c.slots.size

/-- The number of slots in use. -/
def size (c : Chunk) : Nat := c.stop - c.start

def isEmpty (c : Chunk) : Bool := c.start == c.stop

/-- What is kept in a slot. -/
def kept? (c : Chunk) (i : Nat) : Option CachedRecord := c.slots[i]?.join

/-- The record that a slot holds, for use outside the cache. -/
def slot? (c : Chunk) (i : Nat) : Option Record := (c.kept? i).map CachedRecord.toRecord

/-- What a slot in use holds. -/
def record? (c : Chunk) (i : Nat) : Option Record :=
  if c.start ≤ i ∧ i < c.stop then c.slot? i else none

/-- The records, from the oldest to the newest. -/
def records (c : Chunk) : List Record := (List.range' c.start c.size).filterMap c.slot?

/-- The oldest record. -/
def oldest? (c : Chunk) : Option Record := c.record? c.start

/-- The newest record. -/
def newest? (c : Chunk) : Option Record := if c.stop = 0 then none else c.record? (c.stop - 1)

def setSlot (c : Chunk) (i : Nat) (r : Option CachedRecord) : Chunk :=
  { c with slots := c.slots.setIfInBounds i r }

/-- Takes the free slot above the others into use. -/
def openAbove (c : Chunk) : Chunk := { c with stop := c.stop + 1 }

/-- Puts a record into the free slot below the others. -/
def pushOldest (c : Chunk) (r : CachedRecord) : Chunk :=
  { c.setSlot (c.start - 1) (some r) with start := c.start - 1 }

/-- Takes the oldest record out. -/
def popOldest (c : Chunk) : Option CachedRecord × Chunk :=
  if c.isEmpty then (none, c)
  else (c.kept? c.start, { c.setSlot c.start none with start := c.start + 1 })

/-- The slot of the last record at or before a time. -/
def position? (c : Chunk) (t : Timestamp) : Option Nat :=
  let n := ((List.range' c.start c.size).takeWhile fun i =>
    (c.slot? i).any fun r => decide (r.time ≤ t)).length
  if n = 0 then none else some (c.start + n - 1)

/-- Whatever the slots hold. -/
def contents (c : Chunk) : List CachedRecord := c.slots.toList.filterMap id

end Chunk

end HistoryCache
