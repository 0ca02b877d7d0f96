import HistoryCache.StringPool

/-!
# Entries of the string pool

`StringPool` knows how often a text is referred to, and the cache asks no more of it.  What a handle
refers to is an entry, though: a text that is pooled anew, after its last reference was given back,
gets another entry than the one before.  Here the entries are numbered in the order in which they are
made, so that handles to one entry can be told from handles to one text.

The handles to an entry are counted in 32 bits.  The handle after as many as that is an overflow: with
overflow checks it is never given out (`EntryPool.intern?`), and without them the count starts again.  The
budget of a cache has no room for so many.
-/

namespace HistoryCache

/-- A pooled text: the number of its entry, and how many handles refer to it. -/
structure Entry where
  number : Nat
  refs : UInt32
  deriving DecidableEq, Inhabited

/-- A handle that was given out for an entry. -/
structure EntryHandle where
  content : String
  number : Nat
  deriving DecidableEq, Inhabited

/-- The pool with its entries told apart. -/
structure EntryPool where
  entries : Std.ExtTreeMap String Entry compare := ∅
  /-- The number of entries that were ever made. -/
  made : Nat := 0

/-- What a handle refers to, whichever entry that is in. -/
def EntryHandle.text (h : EntryHandle) : Handle := ⟨h.content⟩

/-- Whether two handles refer to one entry. -/
def EntryHandle.same (a b : EntryHandle) : Bool := a.number == b.number

namespace EntryPool

/-- The count of the handles to a text. -/
def count (p : EntryPool) (s : String) : UInt32 := p.entries[s]?.elim 0 Entry.refs

/-- The number of handles to a text. -/
def refs (p : EntryPool) (s : String) : Nat := (p.count s).toNat

def contains (p : EntryPool) (s : String) : Bool := p.entries.contains s

/-- The number of distinct texts. -/
def size (p : EntryPool) : Nat := p.entries.size

def isEmpty (p : EntryPool) : Bool := p.entries.isEmpty

/-- One more handle to a text that is pooled already. -/
def lookup? (p : EntryPool) (s : String) : Option (EntryHandle × EntryPool) :=
  p.entries[s]?.map fun e =>
    (⟨s, e.number⟩, { p with entries := p.entries.insert s { e with refs := e.refs + 1 } })

/-- A new entry, and the first handle to it. -/
def insert (p : EntryPool) (s : String) : EntryHandle × EntryPool :=
  (⟨s, p.made⟩, { entries := p.entries.insert s ⟨p.made, 1⟩, made := p.made + 1 })

/-- A handle to a text, which gets an entry if it has none. -/
def intern (p : EntryPool) (s : String) : EntryHandle × EntryPool :=
  (p.lookup? s).getD (p.insert s)

/-- A handle to a text, if the count has room for it. -/
def intern? (p : EntryPool) (s : String) : Option (EntryHandle × EntryPool) :=
  if p.refs s + 1 < UInt32.size then some (p.intern s) else none

/-- Gives back a handle.  The number returned is what the entry cost, with the last handle to it, and
0 with any other. -/
def release (p : EntryPool) (h : EntryHandle) : Nat × EntryPool :=
  match p.entries[h.content]? with
  | some e =>
    if 1 < e.refs then
      (0, { p with entries := p.entries.insert h.content { e with refs := e.refs - 1 } })
    else (StringPool.entryBytes h.content, { p with entries := p.entries.erase h.content })
  | none => (0, p)

/-- The pool as the cache sees it. -/
def texts (p : EntryPool) : StringPool := ⟨p.entries.map fun _ e => e.refs.toNat⟩

end EntryPool

end HistoryCache
