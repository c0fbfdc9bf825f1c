import GraphPlan.Config.Basic
import GraphPlan.Json.Reader
import GraphPlan.Toml.Parser

/-!
# Configuration files

A configuration is a TOML document with one string per setting. Missing settings have their
defaults, unknown ones are passed over. `Config.toToml` writes a document that reads back as the
configuration.
-/

namespace GraphPlan

/-- Why a configuration cannot be used. -/
inductive ConfigError where
  /-- The file cannot be read. -/
  | read (path : String)
  /-- The document is malformed, or a setting has the wrong type. -/
  | parse (path : Option String)
  /-- The log filter is malformed. -/
  | invalidFilter
  /-- Log messages are filtered already. -/
  | alreadyInstalled
deriving DecidableEq

/-- The message of an error, up to the words of whoever reported it. -/
def ConfigError.message : ConfigError → String
  | read path => "failed to read config " ++ path ++ ": "
  | parse none => "failed to parse config: "
  | parse (some path) => "failed to parse config " ++ path ++ ": "
  | invalidFilter => "logging setup failed: invalid log filter: "
  | alreadyInstalled => "logging setup failed: logging already initialized"

namespace Config

/-- A setting: the string under a key. -/
def setting? (t : Toml.Table) (key : String) : Option (Option String) :=
  match t.get? key with
  | none => some none
  | some (.value (.string s)) => some (some s)
  | some _ => none

/-- The settings of a document. -/
def ofToml? (t : Toml.Table) : Option Config := do
  let attributeScope ← setting? t "attribute_scope"
  let joinType ← setting? t "join_type"
  let extendResultType ← setting? t "extend_result_type"
  let logFilter ← setting? t "log_filter"
  return {
    attributeScope := attributeScope.getD default.attributeScope
    joinType := joinType.getD default.joinType
    extendResultType := extendResultType.getD default.extendResultType
    logFilter := logFilter }

/-- The settings of a text that was found at a path. -/
def parseAt (path : Option String) (text : String) : Except ConfigError Config :=
  match (Toml.parse? text).bind ofToml? with
  | some config => .ok config
  | none => .error (.parse path)

/-- The settings of a text. -/
def parse (text : String) : Except ConfigError Config :=
  parseAt none text

/-- The settings of a file, of which the content is given if it could be read. -/
def load (path : String) (content : Option String) : Except ConfigError Config :=
  match content with
  | some text => parseAt (some path) text
  | none => .error (.read path)

/-- A line with a setting. -/
def settingLine (key value : String) : String :=
  key ++ " = " ++ String.ofList (Toml.writeString value.toList) ++ "\n"

/-- The document of a configuration. -/
def toToml (c : Config) : String :=
  settingLine "attribute_scope" c.attributeScope ++ settingLine "join_type" c.joinType ++
    settingLine "extend_result_type" c.extendResultType ++
    match c.logFilter with
    | some filter => settingLine "log_filter" filter
    | none => ""

/-- Reads a configuration from JSON. -/
def reader : Json.Reader Config
  | 0, _ => none
  | depth + 1, j => do
    let names := ["attribute_scope", "join_type", "extend_result_type", "log_filter"]
    match ← Json.slots names j with
    | [attributeScope, joinType, extendResultType, logFilter] =>
      return {
        attributeScope := ← Json.withDefault default.attributeScope .text depth attributeScope
        joinType := ← Json.withDefault default.joinType .text depth joinType
        extendResultType := ← Json.withDefault default.extendResultType .text depth extendResultType
        logFilter := ← Json.withDefault none (.nullable .text) depth logFilter }
    | _ => none

end Config

end GraphPlan
