import HistoryCache.Arena
import HistoryCache.Chunk
import HistoryCache.SquareRoot

/-!
# Cached histories

The cached history of an item is a row of chunks from the oldest to the newest, and stands for one
flat list of records in the same order (`History.records`).  Older records, read from the store,
enter below the oldest chunk; newer ones, freshly written, above the newest.  Free slots therefore
lie only below the records of the oldest chunk and above those of the newest.

The store knows whole seconds only, so a history must never hold a part of the records of a second:
what is dropped is dropped in whole seconds.
-/

namespace HistoryCache

/-- Chunks from the oldest, at the tail of an arena, to the newest at its head. -/
structure History where
  chunks : Arena Chunk := {}
  /-- The number of records. -/
  size : Nat := 0
  deriving DecidableEq, Inhabited

/-- Where a record is: the place of its chunk, and its slot. -/
structure Spot where
  chunk : Nat
  slot : Nat
  deriving DecidableEq, Inhabited

/-- What a history has let go of: what was kept in slots, and the capacities of chunks. -/
structure Released where
  kept : List CachedRecord := []
  chunks : List Nat := []
  deriving DecidableEq, Inhabited

instance : Append Released := ⟨fun a b => ⟨a.kept ++ b.kept, a.chunks ++ b.chunks⟩⟩

namespace History

/-- The number of chunks that an item should not go far beyond. -/
def maxChunks : Nat := 32

def chunk? (h : History) (i : Nat) : Option Chunk := h.chunks.get? i

/-- Changes the chunk at a place. -/
def modify (h : History) (i : Nat) (f : Chunk → Chunk) : History :=
  { h with chunks := h.chunks.modify i f }

/-- All records, from the oldest to the newest. -/
def records (h : History) : List Record :=
  h.chunks.forth.flatMap fun i => (h.chunk? i).elim [] Chunk.records

/-- The number of chunks. -/
def length (h : History) : Nat := h.chunks.count

def isEmpty (h : History) : Bool := h.chunks.count == 0

/-- The oldest record. -/
def oldest? (h : History) : Option Record := (h.chunks.tail.bind h.chunk?).bind Chunk.oldest?

/-- The newest record. -/
def newest? (h : History) : Option Record := (h.chunks.head.bind h.chunk?).bind Chunk.newest?

/-- The number of slots for a new chunk, where `values` records are held or to be held: about the
square root, so that neither the chunks nor the slots of one are many, or a part of the whole if
that makes too many chunks. -/
def capacityFor (values : Nat) : Nat :=
  let root := squareRoot values
  let slots :=
    if 0 < root ∧ maxChunks < (values + root - 1) / root + 1 then values / maxChunks else root
  max Chunk.minCapacity (min slots Chunk.maxCapacity)

/-! ## Search -/

def record? (h : History) (p : Spot) : Option Record :=
  (h.chunk? p.chunk).bind fun c => c.record? p.slot

/-- The spot of the last record at or before a time.  Chunks are looked at from the newest back; the
first whose oldest record is not later holds it. -/
def position? (h : History) (t : Timestamp) : Option Spot :=
  match h.chunks.back.find? fun i =>
      ((h.chunk? i).bind Chunk.oldest?).any fun r => decide (r.time ≤ t) with
  | some i => (h.chunk? i).bind fun c => (c.position? t).map fun k => ⟨i, k⟩
  | none => none

/-- The spot before one, towards the oldest record. -/
def before? (h : History) (p : Spot) : Option Spot :=
  (h.chunk? p.chunk).bind fun c =>
    if c.start < p.slot then some ⟨p.chunk, p.slot - 1⟩
    else
      (h.chunks.prev? p.chunk).bind fun i =>
        (h.chunk? i).bind fun older =>
          if older.isEmpty then none else some ⟨i, older.stop - 1⟩

/-- The records from a spot back to the oldest, newest first. -/
def back (h : History) (p : Spot) : List Record :=
  (follow h.before? h.size (some p)).filterMap h.record?

/-- The records at or before a time, newest first. -/
def backFrom (h : History) (t : Timestamp) : List Record := (h.position? t).elim [] h.back

/-- Adds up the sizes of some chunks until there are `limit` records. -/
def countChunks (h : History) (limit : Nat) : List Nat → Nat → Nat
  | [], n => n
  | i :: older, n =>
    if n < limit then h.countChunks limit older (n + (h.chunk? i).elim 0 Chunk.size) else n

/-- The number of records at or before a time.  If there are `limit` of them it may be too small, but
not below `limit`. -/
def countUpTo (h : History) (t : Timestamp) (limit : Nat) : Nat :=
  match h.position? t with
  | some p =>
    match h.chunk? p.chunk with
    | some c =>
      h.countChunks limit (follow h.chunks.prev? h.length (h.chunks.prev? p.chunk))
        (p.slot + 1 - c.start)
    | none => 0
  | none => 0

/-! ## The newest end -/

/-- Takes the free slot above the records of the newest chunk into use, if there is one. -/
def reserve? (h : History) : Option (Spot × History) :=
  match h.chunks.head with
  | some i =>
    match h.chunk? i with
    | some c => if c.stop < c.capacity then some (⟨i, c.stop⟩, h.modify i Chunk.openAbove) else none
    | none => none
  | none => none

/-- Puts a chunk above the others and takes its lowest slot into use. -/
def addNewest (h : History) (slots : Nat) : Spot × History :=
  let (i, chunks) := h.chunks.link (Chunk.forNewer slots) none
  (⟨i, 0⟩, { h with chunks := chunks })

def setSpot (h : History) (p : Spot) (r : Option CachedRecord) : History :=
  h.modify p.chunk fun c => c.setSlot p.slot r

/-- Puts a record into a slot that was taken into use for it. -/
def put (h : History) (p : Spot) (r : CachedRecord) : History :=
  { h.setSpot p (some r) with size := h.size + 1 }

/-- Moves what a spot holds to another. -/
def move (h : History) (src dst : Spot) : History :=
  match (h.chunk? src.chunk).bind fun c => c.kept? src.slot with
  | some r => (h.setSpot src none).setSpot dst (some r)
  | none => h

/-- Moves the records of some spots up, each to the spot before it in the list and the first to
`dst`, until `after` is reached.  The spot that has become free is returned; it is the one above
`after`. -/
def shiftUp (after : Spot) : List Spot → Spot → History → Option Spot × History
  | [], _, h => (none, h)
  | src :: older, dst, h =>
    if src = after then (some dst, h) else shiftUp after older src (h.move src dst)

/-- Makes room right above the record at `after`: the later ones move up by a slot, across chunks,
into the slot at `dst`. -/
def makeRoom (h : History) (after dst : Spot) : Option Spot × History :=
  shiftUp after (follow h.before? h.size (h.before? dst)) dst h

/-! ## The oldest end -/

/-- Whether the oldest chunk has a free slot below its records. -/
def hasRoom (h : History) : Bool := (h.chunks.tail.bind h.chunk?).any fun c => decide (0 < c.start)

/-- Puts a chunk below the others that is to be filled from its high end. -/
def addOldest (h : History) (slots : Nat) : History :=
  { h with chunks := (h.chunks.link (Chunk.forOlder slots) h.chunks.tail).2 }

/-- Puts a record below all others, into the free slot of the oldest chunk. -/
def pushOldest (h : History) (r : CachedRecord) : History :=
  match h.chunks.tail with
  | some i => { h.modify i (·.pushOldest r) with size := h.size + 1 }
  | none => h

/-- Takes out the oldest record of a chunk. -/
def popFrom (h : History) (i : Nat) : Released × History :=
  let popped := (h.chunk? i).bind fun c => c.popOldest.1
  let h := h.modify i fun c => c.popOldest.2
  match popped with
  | some r => ({ kept := [r] }, { h with size := h.size - 1 })
  | none => ({}, h)

/-- Takes a chunk out with all that it holds. -/
def removeChunk (h : History) (i : Nat) : Released × History :=
  match h.chunks.unlink i with
  | some (c, chunks) =>
    ({ kept := c.contents, chunks := [c.capacity] },
      { chunks := chunks, size := h.size - c.contents.length })
  | none => ({}, h)

/-- Takes a chunk out if nothing is left in it. -/
def removeIfEmpty (h : History) (i : Nat) : Released × History :=
  if (h.chunk? i).all Chunk.isEmpty then h.removeChunk i else ({}, h)

/-- Lets go of an oldest chunk that holds nothing. -/
def dropEmpty (h : History) : Released × History := h.chunks.tail.elim ({}, h) h.removeIfEmpty

/-- Lets go of not more than `n` records, the oldest first, as long as they are of second `sec` or of
earlier ones. -/
def dropRecords (sec : Int) : (n : Nat) → History → Released × History
  | 0, h => ({}, h)
  | n + 1, h =>
    match h.chunks.tail, h.oldest? with
    | some i, some r =>
      if r.sec ≤ sec then
        let (gone, h) := h.popFrom i
        let (chunk, h) := h.removeIfEmpty i
        let (rest, h) := dropRecords sec n h
        (gone ++ chunk ++ rest, h)
      else ({}, h)
    | _, _ => ({}, h)

/-- Lets go of all records of second `sec` and of earlier ones. -/
def dropThrough (sec : Int) (h : History) : Released × History := dropRecords sec h.size h

/-- Lets go of not more than `n` records of a chunk, the oldest first, as long as they are of second
`sec`. -/
def popSecond (sec : Int) (i : Nat) : (n : Nat) → History → Released × History
  | 0, h => ({}, h)
  | n + 1, h =>
    match (h.chunk? i).bind Chunk.oldest? with
    | some r =>
      if r.sec = sec then
        let (gone, h) := h.popFrom i
        let (rest, h) := popSecond sec i n h
        (gone ++ rest, h)
      else ({}, h)
    | none => ({}, h)

/-- Lets go of not more than `n` oldest chunks whose records are older than `boundary` and not of the
second `newest`.  Records of a dropped chunk's last second go with it from the next chunk as well,
and if the next chunk holds that second only, nothing more is dropped.  The last second that was
dropped is returned too. -/
def trimChunks (boundary newest : Int) : (n : Nat) → History → Option Int × Released × History
  | 0, h => (none, {}, h)
  | n + 1, h =>
    match h.chunks.tail with
    | none => (none, {}, h)
    | some i =>
      match h.chunks.next? i with
      | none => (none, {}, h)
      | some j =>
        match (h.chunk? i).bind Chunk.newest?, (h.chunk? j).bind Chunk.oldest?,
            (h.chunk? j).bind Chunk.newest? with
        | some last, some nextFirst, some nextLast =>
          if boundary ≤ last.sec ∨ last.sec = newest ∨
              nextFirst.sec = last.sec ∧ nextLast.sec = last.sec then (none, {}, h)
          else
            let (split, h) := popSecond last.sec j ((h.chunk? j).elim 0 Chunk.size) h
            let (gone, h) := h.removeChunk i
            let (sec, rest, h) := trimChunks boundary newest n h
            (some (sec.getD last.sec), split ++ gone ++ rest, h)
        | _, _, _ => (none, {}, h)

/-- Lets go of what is older than `boundary` in whole chunks and whole seconds, but never of the
newest chunk and the newest second. -/
def trim (boundary : Int) (h : History) : Option Int × Released × History :=
  match h.newest? with
  | some r => trimChunks boundary r.sec h.length h
  | none => (none, {}, h)

/-- Lets go of everything. -/
def releaseAll (h : History) : Released :=
  ⟨h.chunks.values.flatMap Chunk.contents, h.chunks.values.map Chunk.capacity⟩

end History

end HistoryCache
