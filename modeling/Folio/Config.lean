import Folio.Config.SocketAddress
import Folio.Yaml.Reader

set_option autoImplicit false

/-!
# Server configuration

Read from YAML, with a default for every field that is missing, then overridden by the environment, and
then checked. A field that is set twice or has the wrong type makes the text unusable; fields that are
not known are passed over.
-/
namespace Folio

structure Config where
  bind : Text
  databaseUrl : Option Text
  /-- The file of a snapshot that is served in place of the database. -/
  snapshotPath : Option Text
  runMigrations : Bool
  /-- In seconds. -/
  requestTimeout : Nat
  maxConnections : Nat
deriving DecidableEq, Repr

inductive ConfigFault where
  | noSource
  | badBind (bind : Text)
  | noTimeout
  | noConnections
deriving DecidableEq, Repr

namespace ConfigFault

def reason : ConfigFault → Text
  | noSource => "either database_url or snapshot_path must be set"
  | badBind bind => "bind address '" ++ bind ++ "' is not host:port"
  | noTimeout => "request_timeout_secs must be positive"
  | noConnections => "max_connections must be positive"

end ConfigFault

inductive ConfigError where
  | unreadable
  | badYaml
  | invalid (fault : ConfigFault)
deriving DecidableEq, Repr

namespace ConfigError

def message : ConfigError → Text
  | unreadable => "failed to read config"
  | badYaml => "invalid config YAML"
  | invalid fault => "invalid config: " ++ fault.reason

end ConfigError

namespace Config

def default : Config where
  bind := "0.0.0.0:8080"
  databaseUrl := none
  snapshotPath := none
  runMigrations := false
  requestTimeout := 10
  maxConnections := 10

def fieldNames : List Text :=
  ["bind", "database_url", "snapshot_path", "run_migrations", "request_timeout_secs",
   "max_connections"]

/-- The entries by the texts of their keys, if none of the known ones stands twice. -/
def fields? (entries : List (Yaml × Yaml)) : Option (List (Text × Yaml)) := do
  let fields ← entries.mapM fun (key, value) => key.text?.map fun name => (name, value)
  let known := (fields.map Prod.fst).filter fieldNames.contains
  if known.Nodup then some fields else none

def field? {α : Type} (read? : Yaml → Option α) (default : α) (name : Text)
    (fields : List (Text × Yaml)) : Option α :=
  match fields.lookup name with
  | none => some default
  | some value => read? value

def ofFields? (fields : List (Text × Yaml)) : Option Config := do
  let bind ← field? Yaml.text? default.bind "bind" fields
  let databaseUrl ← field? Yaml.nullableText? none "database_url" fields
  let snapshotPath ← field? Yaml.nullableText? none "snapshot_path" fields
  let runMigrations ← field? Yaml.bool? false "run_migrations" fields
  let requestTimeout ←
    field? (Yaml.natural? UInt64.size) default.requestTimeout "request_timeout_secs" fields
  let maxConnections ←
    field? (Yaml.natural? UInt32.size) default.maxConnections "max_connections" fields
  some { bind, databaseUrl, snapshotPath, runMigrations, requestTimeout, maxConnections }

def ofYaml? : Yaml → Option Config
  | .mapping entries => (fields? entries).bind ofFields?
  | .scalar .plain _ [] => some default
  | _ => none

def read (s : Text) : Except ConfigError Config :=
  if s.all Text.isMarkupSpace then .ok default
  else
    match (Yaml.read? s).bind ofYaml? with
    | some config => .ok config
    | none => .error .badYaml

def ofFile (content : Option Text) : Except ConfigError Config :=
  match content with
  | some s => read s
  | none => .error .unreadable

def override (lookup : Text → Option Text) (c : Config) : Config :=
  let set (key : Text) := (lookup key).filter fun v => !Text.isBlankText v
  { c with
    bind := (set "PAGECRAFT_BIND").getD c.bind
    databaseUrl := (set "DATABASE_URL").or c.databaseUrl
    snapshotPath := (set "PAGECRAFT_SNAPSHOT").or c.snapshotPath }

def fault? (c : Config) : Option ConfigFault :=
  if c.databaseUrl.isNone && c.snapshotPath.isNone then some .noSource
  else if !SocketAddress.isAddress c.bind then some (.badBind c.bind)
  else if c.requestTimeout = 0 then some .noTimeout
  else if c.maxConnections = 0 then some .noConnections
  else none

def defaultFile : Text := "pagecraft.yaml"

/-- The configuration of a server: from the file that the environment names, or else from the default
    file where there is one; then overridden and checked. -/
def load (lookup file : Text → Option Text) : Except ConfigError Config := do
  let c ← match lookup "PAGECRAFT_CONFIG" with
    | some path => ofFile (file path)
    | none =>
      match file defaultFile with
      | some s => read s
      | none => .ok default
  let c := c.override lookup
  match c.fault? with
  | some fault => .error (.invalid fault)
  | none => .ok c

end Config

end Folio
