import HistoryCache.StringPool
import HistoryCache.Value

/-!
# Cached values

What the cache keeps of a value is a copy in which a reference to the pool stands for each text.  What a
request gets is a copy of that copy, with the texts in it again.
-/

namespace HistoryCache

/-- A log entry in the cache. -/
structure CachedLog where
  timestamp : Int
  eventId : Int
  severity : Int
  source : Option Handle
  value : Handle
  deriving DecidableEq, Inhabited

/-- A value in the cache. -/
inductive CachedValue where
  | float (bits : UInt64)
  | str (s : Handle)
  | log (entry : CachedLog)
  | uint (n : UInt64)
  | text (s : Handle)
  deriving DecidableEq, Inhabited

/-- A record in the cache. -/
structure CachedRecord where
  time : Timestamp
  value : CachedValue
  deriving DecidableEq, Inhabited

namespace CachedLog

/-- The references of an entry. -/
def handles (entry : CachedLog) : List Handle := entry.source.toList ++ [entry.value]

/-- A copy for use outside the cache. -/
def toEntry (entry : CachedLog) : LogEntry where
  timestamp := entry.timestamp
  eventId := entry.eventId
  severity := entry.severity
  source := entry.source.map Handle.content
  value := entry.value.content

end CachedLog

namespace CachedValue

/-- The references of a value. -/
def handles : CachedValue → List Handle
  | float _ | uint _ => []
  | str s | text s => [s]
  | log entry => entry.handles

/-- A copy for use outside the cache. -/
def toValue : CachedValue → Value
  | float bits => .float bits
  | uint n => .uint n
  | str s => .str s.content
  | text s => .text s.content
  | log entry => .log entry.toEntry

/-- The texts of a copy are what the references are to. -/
theorem texts_toValue (v : CachedValue) : v.toValue.texts = v.handles.map Handle.content := by
  cases v with
  | float | uint | str | text => rfl
  | log entry =>
    obtain ⟨_, _, _, source, value⟩ := entry
    cases source <;> rfl

end CachedValue

/-- A copy for use outside the cache. -/
def CachedRecord.toRecord (r : CachedRecord) : Record := ⟨r.time, r.value.toValue⟩

end HistoryCache
