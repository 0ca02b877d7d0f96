import HistoryCache.Telemetry.Event
import HistoryCache.Telemetry.Metrics

/-!
# Telemetry

What the outside sees of the cache at work: its metrics and the events since they were last taken.
Nothing that the cache does depends on it.
-/

namespace HistoryCache

structure Telemetry where
  metrics : Metrics := {}
  /-- The events, the last one first. -/
  events : List Event := []
  deriving DecidableEq, Inhabited

namespace Telemetry

def measure (t : Telemetry) (f : Metrics → Metrics) : Telemetry := { t with metrics := f t.metrics }

def log (t : Telemetry) (e : Event) : Telemetry := { t with events := e :: t.events }

/-- The events in the order of their happening, which are then forgotten. -/
def takeEvents (t : Telemetry) : List Event × Telemetry :=
  (t.events.reverse, { t with events := [] })

end Telemetry

end HistoryCache
