import ResultCache.Entry

/-!
# Deferred properties

A property can be waiting for the result of another query: it is set as soon as the session holds
the completed result for its key. A property takes either the whole list of rows or the only row of
it, null if there is none.
-/
namespace ResultCache.Session

/-- How a property takes a list of rows. -/
inductive Target where
  | list
  | single
  deriving DecidableEq, Repr

def Target.name : Target → String
  | .list => "list"
  | .single => "single"

/-- The value a property takes from a list of rows. -/
def Target.extract (t : Target) (rows : List Value) : Result Value :=
  match t, rows with
  | .list, rows => .ok (.list rows)
  | .single, [] => .ok .null
  | .single, [v] => .ok v
  | .single, _ => .error (.extraction .manyRows)

/-- A property of an object that waits for the result of a key. -/
structure Deferred where
  object : ObjId
  property : String
  key : Key
  target : Target

namespace Deferred

/-- Whether the result is there. -/
def canLoad (d : Deferred) (loaded : Entries) : Bool :=
  match loaded.get? d.key with
  | some e => !e.isLoading
  | none => false

/-- Sets the property. Without a completed result the property stays as it is. -/
def load (d : Deferred) (loaded : Entries) (h : Heap) : Result Unit × Heap :=
  match (loaded.get? d.key).bind Entry.results? with
  | none => (.ok (), h)
  | some rows =>
    match d.target.extract rows with
    | .ok v => (.ok (), h.write d.object d.property v)
    | .error f => (.error f, h)

/-- Sets properties in order, up to the first fault. -/
def loadAll (loaded : Entries) : List Deferred → Heap → Result Unit × Heap
  | [], h => (.ok (), h)
  | d :: ds, h =>
    match d.load loaded h with
    | (.ok (), h) => loadAll loaded ds h
    | (.error f, h) => (.error f, h)

end Deferred
end ResultCache.Session
