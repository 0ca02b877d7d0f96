import HistoryCache.Json.Form
import HistoryCache.Toml.Document

/-!
# Configuration files

A configuration is a TOML document with a key for each setting.  A setting that is not given has its
default, and other keys are passed over.
-/

namespace HistoryCache.Config

def integer? : Toml → Option Int
  | .integer n => some n
  | _ => none

def string? : Toml → Option String
  | .string s => some s
  | _ => none

/-- A size as a number of bytes or as a text. -/
def size? : Toml → Option Nat
  | .integer n => if 0 ≤ n then some n.toNat else none
  | .string s => (Size.parse s).toOption
  | _ => none

/-- The setting of a name, or its default if it is not given. -/
def setting? {α : Type} (ms : Toml.Members) (name : String) (read : Toml → Option α)
    (otherwise : α) : Option α :=
  match ms.lookup name with
  | some v => read v
  | none => some otherwise

/-- Reads the text of a file. -/
def ofToml? (text : String) : Option Config := do
  let ms ← Toml.document? text
  let base : Config := {}
  return {
    size := ← setting? ms "size" size? base.size
    itemExpirePeriod := ← setting? ms "item_expire_period" integer? base.itemExpirePeriod
    lowMemoryWarningPeriod :=
      ← setting? ms "low_memory_warning_period" integer? base.lowMemoryWarningPeriod
    lowMemoryResetPeriod :=
      ← setting? ms "low_memory_reset_period" integer? base.lowMemoryResetPeriod
    logLevel := ← setting? ms "log_level" string? base.logLevel }

/-- The text of a file for a configuration.  A whole number has 64 bits with a sign there, so a
larger size cannot be written. -/
def toToml? (c : Config) : Option String :=
  if Text.inInt64 c.size then
    some (String.join ((names.zip [toString c.size, toString c.itemExpirePeriod,
      toString c.lowMemoryWarningPeriod, toString c.lowMemoryResetPeriod,
      Toml.written c.logLevel]).map fun (name, value) => name ++ " = " ++ value ++ "\n"))
  else none

/-- The configuration of a file, of which the text is given if it could be read. -/
def ofFile (text : Option String) : Except Failure Config :=
  match text with
  | none => .error (.io "the file cannot be read")
  | some text =>
    match ofToml? text with
    | some c => .ok c
    | none => .error (.configuration (.other "the configuration file cannot be parsed"))

/-- The configuration of a file with what the environment says instead. -/
def ofFileAndEnvironment (text : Option String) (env : Environment) : Except Failure Config := do
  let c ← ofFile text
  (c.override env).mapError .configuration

/-- The default configuration with what the environment says instead. -/
def ofEnvironment (env : Environment) : Except Failure Config :=
  (override {} env).mapError .configuration

/-- The text to be saved for a configuration. -/
def save (c : Config) : Except Failure String :=
  match c.toToml? with
  | some text => .ok text
  | none => .error (.configuration (.other "the size has no place in a configuration file"))

end HistoryCache.Config
