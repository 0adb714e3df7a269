import ResultCache.Json.Fields
import ResultCache.NameMap
import ResultCache.Value.Text

/-!
# Cache configurations

How the cache of a namespace is set up. A configuration is written as a JSON object with all its
fields in order; reading fills missing fields with the defaults.
-/
namespace ResultCache.Cache

structure Config where
  /-- the name of the store; by default the perpetual one, with a layer that bounds it -/
  store : Option String
  /-- the names of further layers, innermost first -/
  layers : List String
  /-- how many entries the bounding layer keeps -/
  size : Option Nat
  /-- after how many milliseconds the cache is cleared -/
  clearInterval : Option Nat
  /-- callers get copies of the rows and not the rows themselves -/
  copies : Bool
  /-- only one caller at a time computes a missing entry -/
  locks : Bool
  /-- properties offered to every layer -/
  properties : NameMap String
  deriving DecidableEq

namespace Config

def standard : Config := ⟨none, [], none, none, true, false, .empty⟩

instance : Inhabited Config := ⟨standard⟩

def fieldNames : List String :=
  ["implementation", "decorators", "size", "clear_interval_ms", "read_write", "blocking",
   "properties"]

/-- Sets one field from a document. -/
def setField? (c : Config) (name : String) (j : Json) : Option Config :=
  match name with
  | "implementation" => (j.optional? Json.text?).map fun v => { c with store := v }
  | "decorators" => do
    let items ← j.items?
    (items.mapM Json.text?).map fun v => { c with layers := v }
  | "size" => (j.optional? Json.nat?).map fun v => { c with size := v }
  | "clear_interval_ms" => (j.optional? Json.nat?).map fun v => { c with clearInterval := v }
  | "read_write" => j.bool?.map fun v => { c with copies := v }
  | "blocking" => j.bool?.map fun v => { c with locks := v }
  | "properties" => do
    let members ← j.members?
    let pairs ← members.mapM fun m => m.2.text?.map (m.1, ·)
    some { c with properties := .ofList pairs }
  | _ => some c

def ofJson? (j : Json) : Option Config := j.fields? fieldNames setField? standard

/-- The configuration that a JSON text holds. -/
def parse? (s : String) : Option Config := (Json.parse? s).bind ofJson?

def natText (n : Nat) : String := Text.intText n

/-- The JSON text of a configuration. -/
def json (c : Config) : String :=
  Json.objectText [
    ("implementation", Json.optionText Json.stringText c.store),
    ("decorators", Json.arrayText (c.layers.map Json.stringText)),
    ("size", Json.optionText natText c.size),
    ("clear_interval_ms", Json.optionText natText c.clearInterval),
    ("read_write", boolText c.copies),
    ("blocking", boolText c.locks),
    ("properties", Json.objectText (c.properties.entries.map fun p => (p.1, Json.stringText p.2)))]

end Config
end ResultCache.Cache
