import ResultCache.Json.Fields
import ResultCache.Value.Text

/-!
# Session configurations

How long a session keeps the results of its own queries, whether it uses shared caches, and the
environment that its keys belong to. A configuration is written as a JSON object with all its fields
in order; reading fills missing fields with the defaults.
-/
namespace ResultCache.Session

/-- How long results of a session's own queries are kept. -/
inductive Scope where
  /-- until the unit of work ends or an update happens -/
  | session
  /-- until the outermost query is answered -/
  | statement
  deriving DecidableEq, Repr

def Scope.name : Scope → String
  | .session => "session"
  | .statement => "statement"

structure Config where
  scope : Scope
  sharesCaches : Bool
  environment : Option String
  deriving DecidableEq, Repr

namespace Config

def standard : Config := ⟨.session, true, none⟩

instance : Inhabited Config := ⟨standard⟩

def fieldNames : List String := ["local_cache_scope", "cache_enabled", "environment_id"]

def scopes : List (String × Scope) := [Scope.session, Scope.statement].map fun s => (s.name, s)

/-- Sets one field from a document. -/
def setField? (c : Config) (name : String) (j : Json) : Option Config :=
  match name with
  | "local_cache_scope" => (j.oneOf? scopes).map fun v => { c with scope := v }
  | "cache_enabled" => j.bool?.map fun v => { c with sharesCaches := v }
  | "environment_id" => (j.optional? Json.text?).map fun v => { c with environment := v }
  | _ => some c

/-- The configuration that a JSON text holds. -/
def parse? (s : String) : Option Config :=
  (Json.parse? s).bind fun j => j.fields? fieldNames setField? standard

/-- The JSON text of a configuration. -/
def json (c : Config) : String :=
  Json.objectText [
    ("local_cache_scope", Json.stringText c.scope.name),
    ("cache_enabled", boolText c.sharesCaches),
    ("environment_id", Json.optionText Json.stringText c.environment)]

end Config
end ResultCache.Session
