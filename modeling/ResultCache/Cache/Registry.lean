import ResultCache.Cache.Stack
import ResultCache.Text.Uppercase

/-!
# Names of stores and layers

A registry knows stores and layers by name. Case makes no difference to a name, for any letters; of
two registrations under one name the later one counts, whatever it registers.
-/
namespace ResultCache

/-- What a registered name stands for. -/
inductive Maker where
  | store (make : String → Store)
  | layer (l : Layer)

structure Registry where
  makers : NameMap Maker

namespace Registry

def empty : Registry := ⟨.empty⟩

def register (r : Registry) (name : String) (m : Maker) : Registry :=
  ⟨r.makers.insert (Text.upper name) m⟩

def find? (r : Registry) (name : String) : Option Maker := r.makers.get? (Text.upper name)

def contains (r : Registry) (name : String) : Bool := (r.find? name).isSome

/-- The names of the built-in layers. -/
def layerNames : List (String × Layer) :=
  [("LRU", .recency), ("FIFO", .arrival), ("SCHEDULED", .expiry), ("SERIALIZED", .copying),
   ("SYNCHRONIZED", .exclusive), ("LOGGING", .counting), ("BLOCKING", .gate)]

/-- The perpetual store and the built-in layers. -/
def standard : Registry :=
  layerNames.foldl (fun r p => r.register p.1 (.layer p.2))
    (empty.register "PERPETUAL" (.store .perpetual))

instance : Inhabited Registry := ⟨standard⟩

/-- A new store of a registered kind. -/
def newStore (r : Registry) (name id : String) : Result Store :=
  match r.find? name with
  | some (.store make) => .ok (make id)
  | some (.layer _) => .error (.configuration (.notAStore name))
  | none => .error (.configuration (.unknownStore name))

/-- The layer registered under a name. -/
def layer (r : Registry) (name : String) : Result Layer :=
  match r.find? name with
  | some (.layer l) => .ok l
  | some (.store _) => .error (.configuration (.notALayer name))
  | none => .error (.configuration (.unknownLayer name))

theorem find?_register_self (r : Registry) (name : String) (m : Maker) :
    (r.register name m).find? name = some m := by
  simp [register, find?]

end Registry
end ResultCache
