import FieldCatalog.Failure
import FieldCatalog.Settings.Layer
import FieldCatalog.Toml.Parser

/-!
# Settings

Every setting has a default, which a settings file overrides, which the environment overrides. Only
the value that wins is looked at, and it is converted to the kind of the setting.

## Main definitions

* `Settings`, `Settings.defaults`: the settings and their defaults
* `Settings.Key`: their names, kinds and ranges
* `Settings.effective`: the converted value of one setting
* `Settings.loadBy`, `Settings.load`: the settings of a file and an environment
-/

namespace FieldCatalog

/-- The settings of a catalog. -/
structure Settings where
  database : String
  listen : String
  logLevel : String
  lockTimeoutMs : Nat
  busyTimeoutMs : Nat
  retryAttempts : Nat
  retryBackoffMs : Nat
deriving DecidableEq, Repr

namespace Settings

/-- The settings without file and environment. -/
def defaults : Settings where
  database := "fieldkeeper.db"
  listen := "127.0.0.1:8088"
  logLevel := "info"
  lockTimeoutMs := 2000
  busyTimeoutMs := 2000
  retryAttempts := 3
  retryBackoffMs := 50

instance : Inhabited Settings := ⟨defaults⟩

/-- Which setting. -/
inductive Key
  | database
  | listen
  | logLevel
  | lockTimeoutMs
  | busyTimeoutMs
  | retryAttempts
  | retryBackoffMs
deriving DecidableEq, Repr, Inhabited

namespace Key

/-- The name of a setting in files and in the environment. -/
def name : Key → String
  | database => "database"
  | listen => "listen"
  | logLevel => "log_level"
  | lockTimeoutMs => "lock_timeout_ms"
  | busyTimeoutMs => "busy_timeout_ms"
  | retryAttempts => "retry_attempts"
  | retryBackoffMs => "retry_backoff_ms"

/-- The kind of a setting. -/
def Kind : Key → Type
  | database | listen | logLevel => String
  | lockTimeoutMs | busyTimeoutMs | retryAttempts | retryBackoffMs => Nat

/-- A value converted to the kind and the range of a setting. -/
def convert (coercion : Coercion) : (key : Key) → Value → Option key.Kind
  | database | listen | logLevel => coercion.text?
  | lockTimeoutMs | busyTimeoutMs | retryBackoffMs => coercion.number? wordBound
  | retryAttempts => coercion.number? UInt32.size

end Key

/-- The value of a setting. -/
def get (s : Settings) : (key : Key) → key.Kind
  | .database => s.database
  | .listen => s.listen
  | .logLevel => s.logLevel
  | .lockTimeoutMs => s.lockTimeoutMs
  | .busyTimeoutMs => s.busyTimeoutMs
  | .retryAttempts => s.retryAttempts
  | .retryBackoffMs => s.retryBackoffMs

/-- The converted value of a setting, or its default where no layer gives one. -/
def effective (coercion : Coercion) (key : Key) : Option Value → Except Failure key.Kind
  | none => .ok (defaults.get key)
  | some value =>
    match key.convert coercion value with
    | some a => .ok a
    | none => .error (.config ("invalid value for setting " ++ key.name))

/-- The settings of the layers of a file and an environment. -/
def ofLayers (coercion : Coercion) (file environment : Layer) : Except Failure Settings := do
  let setting (key : Key) : Except Failure key.Kind :=
    effective coercion key (overriding file environment key.name)
  .ok
    { database := ← setting .database
      listen := ← setting .listen
      logLevel := ← setting .logLevel
      lockTimeoutMs := ← setting .lockTimeoutMs
      busyTimeoutMs := ← setting .busyTimeoutMs
      retryAttempts := ← setting .retryAttempts
      retryBackoffMs := ← setting .retryBackoffMs }

/-- A text without the byte order mark that files may start with. A document may start with one more
of its own. -/
def withoutMark (text : String) : String :=
  match text.toList with
  | '\uFEFF' :: cs => String.ofList cs
  | _ => text

/-- The settings of a file, if there is one, and an environment, by given conversions. -/
def loadBy (coercion : Coercion) (file : Option String) (environment : List (String × String)) :
    Except Failure Settings :=
  match file with
  | none => ofLayers coercion [] (environmentLayer environment)
  | some text =>
    match Toml.parse (withoutMark text) with
    | some entries => ofLayers coercion (fileLayer entries) (environmentLayer environment)
    | none => .error (.config "the settings file is not valid TOML")

/-- The settings of a file, if there is one, and an environment. -/
def load (file : Option String) (environment : List (String × String)) :
    Except Failure Settings :=
  loadBy .standard file environment

end Settings

end FieldCatalog
