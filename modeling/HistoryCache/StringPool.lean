import HistoryCache.Text.Quoted
import Std.Data.ExtTreeMap

/-!
# The string pool

Histories of texts repeat themselves, so the cache keeps each text once and counts the references
to it.  A text is pooled exactly as long as it has references.  The pool charges nothing itself:
who takes the first reference pays `entryBytes`, and who gives back the last one is told that many
bytes.
-/

namespace HistoryCache

/-- A reference to a pooled text. -/
structure Handle where
  content : String
  deriving DecidableEq, Inhabited

/-- The texts that have references, with their number. -/
structure StringPool where
  counts : Std.ExtTreeMap String Nat compare := ∅

/-- How a handle shows in text. -/
def Handle.describe (h : Handle) : String := "StrHandle(" ++ Text.quoted h.content ++ ")"

namespace StringPool

/-- Bytes that an entry costs: the text in UTF-8, its terminator and a counter of four bytes. -/
def entryBytes (s : String) : Nat := s.utf8ByteSize + 1 + 4

/-- The number of references to a text. -/
def refs (p : StringPool) (s : String) : Nat := p.counts.getD s 0

def contains (p : StringPool) (s : String) : Bool := p.counts.contains s

/-- The number of distinct texts. -/
def size (p : StringPool) : Nat := p.counts.size

def isEmpty (p : StringPool) : Bool := p.counts.isEmpty

/-- One more reference to a text, which is pooled if it was not. -/
def intern (p : StringPool) (s : String) : Handle × StringPool :=
  (⟨s⟩, ⟨p.counts.insert s (p.refs s + 1)⟩)

/-- One more reference to a text that is pooled already. -/
def lookup? (p : StringPool) (s : String) : Option (Handle × StringPool) :=
  if p.contains s then some (p.intern s) else none

/-- Gives back a reference.  The number returned is `entryBytes` with the last reference to a text
and 0 with any other. -/
def release (p : StringPool) (h : Handle) : Nat × StringPool :=
  match p.counts[h.content]? with
  | some n =>
    if 1 < n then (0, ⟨p.counts.insert h.content (n - 1)⟩)
    else (entryBytes h.content, ⟨p.counts.erase h.content⟩)
  | none => (0, p)

theorem refs_intern (p : StringPool) (s t : String) :
    (p.intern s).2.refs t = if s = t then p.refs t + 1 else p.refs t := by
  by_cases h : s = t
  · subst h; simp [intern, refs]
  · simp [intern, refs, Std.ExtTreeMap.getD_insert, h]

end StringPool

end HistoryCache
