/-!
# Metrics

Counters and gauges of the cache and their text: for each family in the order of the names its help,
its type and its samples, the samples of a family in the order of their labels.  A counter with a
label shows once it has counted something, the memory gauges once they have been set.
-/

namespace HistoryCache

/-- Why an item was evicted. -/
inductive EvictionReason where
  | expired
  | weight
  deriving DecidableEq, Inhabited

/-- The measured values. -/
structure Metrics where
  /-- Values served from the cache. -/
  hits : Nat := 0
  /-- Values read from the store. -/
  misses : Nat := 0
  readsByTime : Nat := 0
  readsByCount : Nat := 0
  evictedExpired : Nat := 0
  evictedByWeight : Nat := 0
  /-- Whether the cache was last seen in low-memory mode. -/
  lowMemory : Bool := false
  /-- The number of items when one last came or went. -/
  items : Nat := 0
  /-- The total and the free bytes of the budget when they were last looked at. -/
  memory : Option (Nat × Nat) := none
  deriving DecidableEq, Inhabited

namespace Metrics

def served (m : Metrics) (hits misses : Nat) : Metrics :=
  { m with hits := m.hits + hits, misses := m.misses + misses }

def evicted (m : Metrics) : EvictionReason → Metrics
  | .expired => { m with evictedExpired := m.evictedExpired + 1 }
  | .weight => { m with evictedByWeight := m.evictedByWeight + 1 }

/-- A sample: what stands between the braces, if anything, and the value. -/
abbrev Sample := Option (String × String) × Nat

/-- A family of samples. -/
structure Family where
  name : String
  help : String
  kind : String
  samples : List Sample

def sampleText (name : String) : Sample → String
  | (none, n) => name ++ " " ++ toString n ++ "\n"
  | (some (label, value), n) =>
    name ++ "\x7b" ++ label ++ "=\"" ++ value ++ "\"\x7d " ++ toString n ++ "\n"

/-- A family without samples is left out. -/
def Family.text (f : Family) : String :=
  if f.samples.isEmpty then ""
  else
    "# HELP " ++ f.name ++ " " ++ f.help ++ "\n" ++
    "# TYPE " ++ f.name ++ " " ++ f.kind ++ "\n" ++
    String.join (f.samples.map (sampleText f.name))

/-- A labelled counter, which has no sample before it has counted. -/
def counted (label value : String) (n : Nat) : List Sample :=
  if n = 0 then [] else [(some (label, value), n)]

/-- The families in the order of their names. -/
def families (m : Metrics) : List Family := [
  { name := "valuecache_evictions_total"
    help := "Items removed from the value cache"
    kind := "counter"
    samples := counted "reason" "expired" m.evictedExpired ++
      counted "reason" "weight" m.evictedByWeight },
  { name := "valuecache_items"
    help := "Number of items in the value cache"
    kind := "gauge"
    samples := [(none, m.items)] },
  { name := "valuecache_memory_bytes"
    help := "Value cache memory in bytes"
    kind := "gauge"
    samples :=
      match m.memory with
      | some (total, free) => [(some ("kind", "free"), free), (some ("kind", "total"), total)]
      | none => [] },
  { name := "valuecache_mode"
    help := "Value cache operating mode (0 normal, 1 low memory)"
    kind := "gauge"
    samples := [(none, if m.lowMemory then 1 else 0)] },
  { name := "valuecache_store_reads_total"
    help := "History store reads issued by the value cache"
    kind := "counter"
    samples := counted "kind" "count" m.readsByCount ++ counted "kind" "time" m.readsByTime },
  { name := "valuecache_values_total"
    help := "History values returned by the value cache"
    kind := "counter"
    samples := counted "result" "hit" m.hits ++ counted "result" "miss" m.misses }]

def text (m : Metrics) : String := String.join (m.families.map Family.text)

end Metrics

end HistoryCache
