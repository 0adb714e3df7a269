import ResultCache.Session.Basic

/-!
# How rows become results

The rows that a data source returns are turned into results by an assembly: a program that may make
objects, read and change them, and call the session that is running the query for more, even for
other queries. `Call` lists what can be asked of a session, with the type of each answer.

An assembly is a value, with the rest of the program as a function of each answer, so what a session
does while it runs one can be said for all of them. It ends with a result or a fault.
-/
namespace ResultCache

/-- What a query gives: its rows, and the rows it handed to the caller one by one instead. These are
gone even if the query fails afterwards. -/
structure Reply where
  result : Result (List Value)
  handled : List Value

/-- A reply of rows, or of a fault. -/
def Reply.ofResult (r : Result (List Value)) : Reply := ⟨r, []⟩

/-- What can be asked of a session, and the type of the answer. -/
inductive Call : Type → Type where
  /-- runs a query, under a key that may be given, and hands rows over one by one if asked to -/
  | query (q : Query) (key : Option Key) (handled : Bool) : Call Reply
  | key (q : Query) : Call (Result Key)
  | isLoaded (k : Key) : Call (Result Bool)
  | defer (d : Session.Deferred) : Call (Result Unit)
  | update (s : Statement) (param : Value) : Call (Result Nat)
  | commit (required : Bool) : Call (Result Unit)
  | rollback (required : Bool) : Call (Result Unit)
  | close (force : Bool) : Call (Result Unit)
  | clearLoaded : Call Unit
  | isClosed : Call Bool
  | config : Call Session.Config

/-- A program that makes an `α`, while a query runs over a data source with states of type `τ`. -/
inductive Assembly (τ : Type) : Type → Type 1 where
  | done {α : Type} (r : Result α) : Assembly τ α
  /-- looks at the objects -/
  | heap {α : Type} (next : Heap → Assembly τ α) : Assembly τ α
  /-- makes a new object -/
  | alloc {α : Type} (r : Record) (next : ObjId → Assembly τ α) : Assembly τ α
  /-- sets a property -/
  | write {α : Type} (o : ObjId) (name : String) (v : Value) (next : Assembly τ α) : Assembly τ α
  /-- lets the data source take note of something -/
  | note {α : Type} (f : τ → τ) (next : Assembly τ α) : Assembly τ α
  | call {α β : Type} (c : Call β) (next : β → Assembly τ α) : Assembly τ α

namespace Assembly

variable {τ α β : Type}

def bind : Assembly τ α → (α → Assembly τ β) → Assembly τ β
  | .done (.ok a), f => f a
  | .done (.error e), _ => .done (.error e)
  | .heap next, f => .heap fun h => (next h).bind f
  | .alloc r next, f => .alloc r fun o => (next o).bind f
  | .write o name v next, f => .write o name v (next.bind f)
  | .note g next, f => .note g (next.bind f)
  | .call c next, f => .call c fun b => (next b).bind f

instance : Monad (Assembly τ) where
  pure a := .done (.ok a)
  bind := bind

/-- Asks the session. -/
def ask (c : Call β) : Assembly τ β := .call c fun b => .done (.ok b)

/-- Asks the session and ends with its fault, if there is one. -/
def need (c : Call (Result β)) : Assembly τ β := .call c .done

/-- Makes new objects with the given properties, and results of them. -/
def objects : List Record → Assembly τ (List Value)
  | [] => .done (.ok [])
  | r :: rs => .alloc r fun o => (objects rs).bind fun vs => .done (.ok (.object o :: vs))

mutual

/-- Makes the value that an outline describes. -/
def make : Outline → Assembly τ Value
  | .null => .done (.ok .null)
  | .bool b => .done (.ok (.bool b))
  | .int n => .done (.ok (.int n))
  | .float b => .done (.ok (.float b))
  | .text s => .done (.ok (.text s))
  | .bytes bs => .done (.ok (.bytes bs))
  | .list ls => (makeAll ls).bind fun vs => .done (.ok (.list vs))
  | .object props =>
    (makeProps props).bind fun pairs => .alloc (.ofList pairs) fun o => .done (.ok (.object o))
  | .ref o => .done (.ok (.object o))

def makeAll : List Outline → Assembly τ (List Value)
  | [] => .done (.ok [])
  | l :: ls => (make l).bind fun v => (makeAll ls).bind fun vs => .done (.ok (v :: vs))

def makeProps : List (String × Outline) → Assembly τ (List (String × Value))
  | [] => .done (.ok [])
  | (name, l) :: props =>
    (make l).bind fun v => (makeProps props).bind fun pairs => .done (.ok ((name, v) :: pairs))

end

end Assembly

/-- How the rows of each statement become results. -/
abbrev Materializer (τ : Type) := Statement → List Record → Assembly τ (List Value)

/-- Every row becomes an object with its columns. -/
def Materializer.rows (τ : Type) : Materializer τ := fun _ rs => Assembly.objects rs

end ResultCache
