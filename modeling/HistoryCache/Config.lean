import HistoryCache.Config.Size

/-!
# Configurations

The five settings of a cache, their bounds (`Config.validate`), and the settings that the
environment overrides.
-/

namespace HistoryCache

/-- The settings of a cache. -/
structure Config where
  /-- The memory budget in bytes; with 0 the cache is off. -/
  size : Nat := 8 * 1024 * 1024
  /-- The seconds without a request after which an item is dropped first when memory runs out, and
  with the next write. -/
  itemExpirePeriod : Int := 86400
  /-- The least number of seconds between two warnings of low memory. -/
  lowMemoryWarningPeriod : Int := 300
  /-- The seconds without an eviction after which low-memory mode ends. -/
  lowMemoryResetPeriod : Int := 86400
  /-- The level of the log: error, warn, info, debug or trace. -/
  logLevel : String := "info"
  deriving DecidableEq, Inhabited

/-- What the environment says of the settings. -/
structure Environment where
  size : Option String := none
  itemExpirePeriod : Option String := none
  logLevel : Option String := none
  deriving DecidableEq, Inhabited

namespace Config

/-- The smallest budget of a cache that is on. -/
def minSize : Nat := 128 * 1024

/-- The largest budget. -/
def maxSize : Nat := 64 * 1024 * 1024 * 1024

/-- A period is positive. -/
def validatePeriod (field : String) (period : Int) : Except ConfigFailure Unit :=
  if 0 < period then .ok ()
  else .error (.outOfRange field (toString period) "1" "9223372036854775807")

/-- The size is within its bounds or 0. -/
def validateSize (size : Nat) : Except ConfigFailure Unit :=
  if size = 0 ∨ minSize ≤ size ∧ size ≤ maxSize then .ok ()
  else .error (.outOfRange "size" (toString size) (toString minSize) (toString maxSize))

/-- Checks the size, then the periods; the first failure counts. -/
def validate (c : Config) : Except ConfigFailure Unit := do
  validateSize c.size
  validatePeriod "item_expire_period" c.itemExpirePeriod
  validatePeriod "low_memory_warning_period" c.lowMemoryWarningPeriod
  validatePeriod "low_memory_reset_period" c.lowMemoryResetPeriod

/-- A period in decimal digits; a text that is none is passed over. -/
def period? (s : String) : Option Int := (Text.signed? s.toList).filter Text.inInt64

/-- The configuration with what the environment says instead.  A size that cannot be read is a
failure, a period that cannot be read counts as not said. -/
def override (c : Config) (env : Environment) : Except ConfigFailure Config := do
  let size ←
    match env.size with
    | some s => Size.parse s
    | none => .ok c.size
  return { c with
    size := size
    itemExpirePeriod := (env.itemExpirePeriod.bind period?).getD c.itemExpirePeriod
    logLevel := env.logLevel.getD c.logLevel }

end Config

end HistoryCache
