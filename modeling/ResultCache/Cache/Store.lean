import ResultCache.Cache.Basic

/-!
# Stores

A store lies at the bottom of every cache and keeps entries until they are removed or cleared. A
perpetual store never fails. A faulty one can be told to refuse operations: a refused call does
nothing and reports a fault, which is how the layers above are seen to behave when what is below
them fails.

Main facts: `get_put_self` and `get_put_of_ne` for a store that refuses nothing.
-/
namespace ResultCache

/-- An operation that a store can be told to refuse. -/
inductive StoreOp where
  | put
  | get
  | remove
  deriving DecidableEq, Repr

def StoreOp.name : StoreOp → String
  | .put => "put"
  | .get => "get"
  | .remove => "remove"

structure Store where
  id : String
  entries : Entries
  refused : List StoreOp
  /-- what is refused can be set as a property -/
  faulty : Bool

namespace Store

def perpetual (id : String) : Store := ⟨id, .empty, [], false⟩

def faultyStore (id : String) : Store := ⟨id, .empty, [], true⟩

instance : Inhabited Store := ⟨perpetual ""⟩

/-- The fault of a refused operation. -/
def refusal (op : StoreOp) : Fault := .execution (.reported (op.name ++ " failed"))

def put (k : Key) (e : Entry) (s : Store) : Result Unit × Store :=
  if .put ∈ s.refused then (.error (refusal .put), s)
  else (.ok (), { s with entries := s.entries.insert k e })

def get (k : Key) (s : Store) : Result (Option Entry) :=
  if .get ∈ s.refused then .error (refusal .get) else .ok (s.entries.get? k)

def remove (k : Key) (s : Store) : Result (Option Entry) × Store :=
  if .remove ∈ s.refused then (.error (refusal .remove), s)
  else (.ok (s.entries.get? k), { s with entries := s.entries.erase k })

def clear (s : Store) : Store := { s with entries := .empty }

/-- The operations that a list of names, separated by commas, stands for. -/
def refusedOf (names : List String) : List StoreOp :=
  [.put, .get, .remove].filter fun op => op.name ∈ names

/-- A faulty store takes the operations to refuse as its property `fail` and rejects every value of
its property `reject`. -/
def configure (name value : String) (s : Store) : Result (Bool × Store) :=
  if s.faulty && name == "fail" then
    .ok (true, { s with refused := refusedOf (value.splitOn ",") })
  else if s.faulty && name == "reject" then
    .error (.configuration (.reported ("probe rejects " ++ value)))
  else .ok (false, s)

def ops : CacheOps Store where
  id := Store.id
  size _ s := (s.entries.size, s)
  put _ _ k e s := s.put k e
  get _ h k s := (s.get k, h, s)
  remove _ h k s :=
    let (r, s) := s.remove k
    (r, h, s)
  clear _ s := s.clear
  configure := configure
  stats _ := none
  resetStats s := s

theorem get_put_self {s : Store} (h : s.refused = []) (k : Key) (e : Entry) :
    (s.put k e).2.get k = .ok (some e) := by
  simp [put, get, h]

theorem get_put_of_ne {s : Store} (h : s.refused = []) {k j : Key} (e : Entry) (hj : j ≠ k) :
    (s.put k e).2.get j = s.get j := by
  simp [put, get, h, Table.get?_insert_of_ne _ _ hj]

end Store
end ResultCache
