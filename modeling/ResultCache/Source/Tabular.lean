import ResultCache.Session.Basic
import ResultCache.Value.Equality

/-!
# A data source made of tables of answers

The source knows the rows of queries by statement and by the first value that goes in, and the
values that procedures give to their output parameters; objects in rows are made anew for every query. It
keeps a journal of the calls made to it, with the objects as they were then, and can be told to fail
some of them, by their number among the calls of their kind.
-/
namespace ResultCache

/-- Rows for a statement, for one first input value or for any. -/
structure TableEntry where
  statement : String
  param : Option Outline
  rows : List (List (String × Outline))

inductive SourceOp where
  | query
  | update
  | commit
  | rollback
  deriving DecidableEq, Repr

def SourceOp.name : SourceOp → String
  | .query => "query"
  | .update => "update"
  | .commit => "commit"
  | .rollback => "rollback"

structure Tabular where
  entries : List TableEntry
  /-- what output parameters are set to -/
  outputs : NameMap Outline
  /-- how many rows an update affects -/
  affected : Nat
  /-- the numbers of the calls of each kind that fail -/
  failing : SourceOp → List Nat

/-- What a journal tells of, with the objects as they were then. Users of the source can add notes
of their own. -/
inductive Event (ε : Type) where
  | query (h : Heap) (statement : String) (inputs : List Value) (w : Window)
  | update (h : Heap) (statement : String) (inputs : List Value)
  | commit
  | rollback
  | close
  | note (e : ε)

structure Journal (ε : Type) where
  /-- how many calls of each kind there were -/
  count : SourceOp → Nat
  /-- what happened, the latest first -/
  events : List (Event ε)

namespace Journal

variable {ε : Type}

def empty : Journal ε := ⟨fun _ => 0, []⟩

def write (e : Event ε) (j : Journal ε) : Journal ε := { j with events := e :: j.events }

/-- Counts a call. -/
def tick (op : SourceOp) (j : Journal ε) : Journal ε :=
  { j with count := fun o => if o = op then j.count o + 1 else j.count o }

end Journal

namespace Tabular

variable {ε : Type}

/-- Counts a call and tells whether it fails. -/
def attempt (t : Tabular) (op : SourceOp) (j : Journal ε) : Result Unit × Journal ε :=
  (if j.count op ∈ t.failing op then .error (.execution (.reported (op.name ++ " failed")))
   else .ok (), j.tick op)

/-- Whether an entry answers a statement with the given first input value. -/
def TableEntry.answers (e : TableEntry) (statement : String) (h : Heap) (first : Value) : Bool :=
  e.statement = statement &&
    match e.param with
    | none => true
    | some o =>
      let (v, h) := o.build h
      h.equal v first

/-- The rows of a statement, as new objects. -/
def rowsFor (t : Tabular) (statement : String) (inputs : List Value) (h : Heap) :
    List Record × Heap :=
  match t.entries.find? fun e => TableEntry.answers e statement h (.ofOption inputs.head?) with
  | some e => Outline.buildRecords e.rows h
  | none => ([], h)

/-- Sets the output parameters of a procedure call. -/
def setOutputs (t : Tabular) (st : Statement) (b : Binding) (param : Value) (h : Heap) : Heap :=
  match st.isCallable, param with
  | true, .object o =>
    (b.parameters.filter (·.direction ≠ .input)).foldl (fun h p =>
      let (v, h) := ((t.outputs.get? p.name).getD .null).build h
      h.write o p.name v) h
  | _, _ => h

/-- The data source of some tables, with its journal as state. A quiet source takes no part in the
end of a unit of work. -/
def source (t : Tabular) (quiet : Bool) : DataSource (Journal ε) where
  query st b param w h j :=
    let inputs := b.inputs h param
    match t.attempt .query (j.write (.query h st.id inputs w)) with
    | (.error f, j) => (.error f, h, j)
    | (.ok (), j) =>
      let (rows, h) := t.rowsFor st.id inputs (t.setOutputs st b param h)
      (.ok rows, h, j)
  update st b param h j :=
    let (r, j) := t.attempt .update (j.write (.update h st.id (b.inputs h param)))
    (r.map fun _ => t.affected, h, j)
  commit j := if quiet then (.ok (), j) else t.attempt .commit (j.write .commit)
  rollback j := if quiet then (.ok (), j) else t.attempt .rollback (j.write .rollback)
  close j := if quiet then j else j.write .close

end Tabular
end ResultCache
