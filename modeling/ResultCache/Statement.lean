import ResultCache.Cache.Pool

/-!
# Statements and their parameters

A statement is SQL text with named parameters, in order, and what it means for the caches. To run
it, its text and parameters are bound: every parameter that goes in gets a value from the caller's
parameter, which is either an object with a property for each name or one value for all of them.
Values bound beside it by name come first.
-/
namespace ResultCache

inductive Direction where
  | input
  | output
  | both
  deriving DecidableEq, Repr, Inhabited

def Direction.name : Direction → String
  | .input => "in"
  | .output => "out"
  | .both => "inout"

/-- A named parameter of a statement. -/
structure Parameter where
  name : String
  direction : Direction
  deriving DecidableEq, Repr

/-- How many rows are skipped and how many are wanted at most. -/
structure Window where
  offset : Int64
  limit : Int64
  deriving DecidableEq, Repr

/-- From the first row on, as many as a signed 32-bit number can count. -/
def Window.unbounded : Window := ⟨0, 2147483647⟩

instance : Inhabited Window := ⟨.unbounded⟩

/-- SQL text that is ready to run, with its parameters. -/
structure Binding where
  sql : String
  parameters : List Parameter
  /-- values that come before those of the caller's parameter -/
  additional : NameMap Value

namespace Binding

/-- The value that a parameter is bound to. -/
def resolve (b : Binding) (h : Heap) (p : Parameter) (param : Value) : Value :=
  match b.additional.get? p.name with
  | some v => v
  | none =>
    match param with
    | .object o => .ofOption (h.read o p.name)
    | v => v

/-- The values of all parameters that go in, in order. -/
def inputs (b : Binding) (h : Heap) (param : Value) : List Value :=
  (b.parameters.filter (·.direction ≠ .output)).map fun p => b.resolve h p param

end Binding

inductive StatementKind where
  | select
  | insert
  | update
  | delete
  deriving DecidableEq, Repr

def StatementKind.name : StatementKind → String
  | .select => "select"
  | .insert => "insert"
  | .update => "update"
  | .delete => "delete"

/-- How a statement is handed to the data source. -/
inductive StatementForm where
  | direct
  | prepared
  | callable
  deriving DecidableEq, Repr

def StatementForm.name : StatementForm → String
  | .direct => "statement"
  | .prepared => "prepared"
  | .callable => "callable"

structure Statement where
  id : String
  kind : StatementKind
  form : StatementForm
  sql : String
  parameters : List Parameter
  /-- running the statement empties the caches of its namespace -/
  flushes : Bool
  /-- the results may come from the shared cache of its namespace -/
  usesCache : Bool
  /-- the shared cache of its namespace -/
  cache : Option CacheRef

namespace Statement

/-- A statement of a kind, as it is unless told otherwise: queries use the cache, everything else
empties it. -/
def make (kind : StatementKind) (id sql : String) : Statement where
  id := id
  kind := kind
  form := .prepared
  sql := sql
  parameters := []
  flushes := kind ≠ .select
  usesCache := kind = .select
  cache := none

def isCallable (s : Statement) : Bool := s.form = .callable

def binding (s : Statement) : Binding := ⟨s.sql, s.parameters, .empty⟩

/-- Whether the data source sets parameters of the statement. -/
def setsParameters (b : Binding) : Bool := b.parameters.any (·.direction ≠ .input)

end Statement
end ResultCache
