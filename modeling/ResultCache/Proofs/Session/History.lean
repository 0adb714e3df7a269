import Mathlib.Logic.Function.Basic
import ResultCache.Proofs.Session.Effects

/-!
# Many sessions and what happened to them

Any number of sessions share a world (`System`). Each of their calls is one step, and so is what
their callers do to objects. A `History` lists the steps that led to a system, the latest one
first, and its callers are well-behaved: they do not change an object that an answer led them to
(`Given`), and do not let a procedure set one.

What was asked so far is the list `asked`. Two askings have one key exactly if they are the same
once the environment is written behind the inputs (`Asking.key_eq_iff`), so a key tells everything
that the rows depend on, as long as the environment is the same. `Lost` are the keys for which a
cache holds an absence that a session published though it had loaded rows.
-/
namespace ResultCache

/-- What a query asks of the data source, and the environment that its key belongs to. -/
structure Asking where
  id : String
  window : Window
  sql : String
  inputs : List Frozen
  environment : Option String

namespace Asking

def ofStatement (st : Statement) (param : Value) (w : Window) (c : Session.Config) (h : Heap) :
    Asking :=
  ⟨st.id, w, st.sql, (st.binding.inputs h param).map h.freeze, c.environment⟩

/-- The same with the environment as one more input. -/
def flat (a : Asking) : Asking :=
  { a with inputs := a.inputs ++ a.environment.toList.map Frozen.text, environment := none }

def components (a : Asking) : List Frozen :=
  [.text a.id, .int a.window.offset, .int a.window.limit, .text a.sql] ++ a.flat.inputs

def key (H : ComponentHash) (a : Asking) : Key := .ofComponents H a.components

/-- The rows that the data source holds. -/
def rows (answer : Answer) (a : Asking) : List Frozen := answer a.id a.sql a.window a.inputs

variable {H : ComponentHash} {a b : Asking}

end Asking

/-- A hash that tells no components apart. -/
def flatHash : ComponentHash := ⟨fun _ => 1, rfl⟩

theorem Key.components_appendAll (H : ComponentHash) (k : Key) (cs : List Frozen) :
    (k.appendAll H cs).components = k.components ++ cs := by
  induction cs generalizing k with
  | nil => exact (List.append_nil _).symm
  | cons c cs ih =>
    change ((k.append H c).appendAll H cs).components = _
    rw [ih, components_append, List.append_assoc]
    rfl

namespace Asking

variable {H : ComponentHash} {a b : Asking}

/-- The key that a session makes is that of the asking. -/
theorem keyOf_eq (H : ComponentHash) (st : Statement) (param : Value) (w : Window)
    (c : Session.Config) (h : Heap) :
    Session.keyOf H h c (.ofStatement st param w) = (ofStatement st param w c h).key H := by
  have htext : ∀ s : String, h.freeze (.text s) = .text s := fun s => by
    rw [Heap.freeze, Heap.freezeAlong]
  have hint : ∀ n : Int64, h.freeze (.int n) = .int n := fun n => by
    rw [Heap.freeze, Heap.freezeAlong]
  rw [Session.keyOf, key, components, flat]
  simp [Query.ofStatement, Statement.binding, ofStatement, htext, hint, Function.comp_def]

/-- Keys tell askings apart, except that they do not know where the inputs end and the environment
begins. -/
theorem key_eq_iff : a.key H = b.key H ↔ a.flat = b.flat := by
  constructor
  · intro he
    have hcomponents : a.components = b.components := by
      have hc := congrArg Key.components he
      rw [key, key, Key.ofComponents, Key.ofComponents, Key.components_appendAll,
        Key.components_appendAll] at hc
      exact hc
    obtain ⟨id, ⟨offset, limit⟩, sql, inputs, environment⟩ := a
    obtain ⟨id', ⟨offset', limit'⟩, sql', inputs', environment'⟩ := b
    simpa [components, flat, and_assoc] using hcomponents
  · intro he
    have hcomponents : a.components = b.components := by
      have hid : a.id = b.id := congrArg (·.id) he
      have hwindow : a.window = b.window := congrArg (·.window) he
      have hsql : a.sql = b.sql := congrArg (·.sql) he
      rw [components, components, he, hid, hwindow, hsql]
    rw [key, key, hcomponents]

/-- Within one environment, one key means one answer. -/
theorem rows_eq_of_flat (answer : Answer) (he : a.flat = b.flat)
    (henv : a.environment = b.environment) : a.rows answer = b.rows answer := by
  have hid : a.id = b.id := congrArg (·.id) he
  have hwindow : a.window = b.window := congrArg (·.window) he
  have hsql : a.sql = b.sql := congrArg (·.sql) he
  have hinputs : a.inputs ++ a.environment.toList.map Frozen.text =
      b.inputs ++ b.environment.toList.map Frozen.text := congrArg (·.inputs) he
  rw [henv] at hinputs
  rw [rows, rows, hid, hwindow, hsql, List.append_cancel_right hinputs]

end Asking

/-- Sessions that share a world. -/
structure System (τ : Type) where
  sessions : Nat → Session
  world : World τ

/-- What happens to a system: a session is called, or a caller makes or changes an object, or time
passes. -/
inductive Act where
  | query (i : Nat) (st : Statement) (param : Value) (w : Window)
  | update (i : Nat) (st : Statement) (param : Value)
  | commit (i : Nat) (required : Bool)
  | rollback (i : Nat) (required : Bool)
  | close (i : Nat) (force : Bool)
  | make (r : Record)
  | write (o : ObjId) (name : String) (v : Value)
  | wait (d : Nat)

namespace System

variable {τ : Type}

def heap (S : System τ) : Heap := S.world.heap

/-- One session at work. -/
def state (S : System τ) (i : Nat) : State τ := ⟨S.sessions i, S.world⟩

/-- What a session left behind. -/
def back (S : System τ) (i : Nat) (s : State τ) : System τ :=
  ⟨Function.update S.sessions i s.session, s.world⟩

/-- Calls a session from outside. -/
def call (env : Env τ) (limit : Nat) (i : Nat) {β : Type} (c : Call β) (S : System τ) :
    Option (β × System τ) :=
  (env.perform limit c (S.state i)).map fun p => (p.1, S.back i p.2)

/-- One step, with the reply if it was a query. -/
def step (env : Env τ) (limit : Nat) (S : System τ) : Act → Option (Option Reply × System τ)
  | .query i st param w =>
    (S.call env limit i (.query (.ofStatement st param w) none false)).map fun p => (some p.1, p.2)
  | .update i st param => (S.call env limit i (.update st param)).map fun p => (none, p.2)
  | .commit i required => (S.call env limit i (.commit required)).map fun p => (none, p.2)
  | .rollback i required => (S.call env limit i (.rollback required)).map fun p => (none, p.2)
  | .close i force => (S.call env limit i (.close force)).map fun p => (none, p.2)
  | .make r => some (none, { S with world := { S.world with heap := (S.heap.alloc r).2 } })
  | .write o name v =>
    some (none, { S with world := { S.world with heap := S.heap.write o name v } })
  | .wait d => some (none, { S with world := { S.world with now := S.world.now + d } })

end System

/-- A step that happened. -/
structure Moment (τ : Type) where
  act : Act
  before : System τ
  reply : Option Reply
  after : System τ

variable {τ : Type}

/-- What was asked, if it was a query. -/
def Moment.asking? (e : Moment τ) : Option Asking :=
  match e.act with
  | .query i st param w =>
    some (.ofStatement st param w (e.before.sessions i).config e.before.heap)
  | _ => none

/-- The buffers that the step published. -/
def Moment.published (D : DataSource τ) (e : Moment τ) : Buffers :=
  match e.act with
  | .commit i required => (e.before.state i).published D required
  | .close i false => (e.before.state i).published D false
  | _ => .empty

/-- Everything that was asked so far. -/
def asked (past : List (Moment τ)) : List Asking := past.filterMap Moment.asking?

/-- The lost keys of each cache. What was published last for such a key is an absence, though the
session had loaded rows for it. -/
def Lost (D : DataSource τ) : List (Moment τ) → CacheRef → Key → Prop
  | [] => fun _ _ => False
  | e :: past => (e.published D).lostAfter (Lost D past)

/-- The objects that the answers so far led to. -/
def Given (past : List (Moment τ)) (o : ObjId) : Prop :=
  ∃ e ∈ past, ∃ reply, e.reply = some reply ∧ reply.reached e.after.heap o

/-- What callers may do: they name only objects that exist, and change none that they were given. -/
def Act.Legal (past : List (Moment τ)) (S : System τ) : Act → Prop
  | .query _ st param _ => param.Known S.heap ∧ ∀ o, st.Sets param o → ¬ Given past o
  | .make r => r.Known S.heap
  | .write o _ v => ¬ Given past o ∧ v.Known S.heap
  | _ => True

/-- The steps from one system to another, the latest one first. -/
inductive History (env : Env τ) (limit : Nat) (S₀ : System τ) : List (Moment τ) → System τ → Prop
  | start : History env limit S₀ [] S₀
  | step {past : List (Moment τ)} {S S' : System τ} {a : Act} {reply : Option Reply} :
    History env limit S₀ past S → a.Legal past S → S.step env limit a = some (reply, S') →
    History env limit S₀ (⟨a, S, reply, S'⟩ :: past) S'

/-- The steps of some acts, with the past before them. -/
def System.steps (env : Env τ) (limit : Nat) :
    List Act → List (Moment τ) → System τ → Option (List (Moment τ) × System τ)
  | [], past, S => some (past, S)
  | a :: as, past, S =>
    (S.step env limit a).bind fun p => steps env limit as (⟨a, S, p.1, p.2⟩ :: past) p.2

/-- Acts that are legal anywhere make a history. -/
theorem History.steps {env : Env τ} {limit : Nat} {S₀ S S' : System τ}
    {past past' : List (Moment τ)} {as : List Act}
    (has : ∀ a ∈ as, ∀ (p : List (Moment τ)) (T : System τ), a.Legal p T)
    (hS : History env limit S₀ past S)
    (hsteps : S.steps env limit as past = some (past', S')) : History env limit S₀ past' S' := by
  induction as generalizing past S with
  | nil =>
    cases hsteps
    exact hS
  | cons a as ih =>
    obtain ⟨⟨reply, T⟩, hstep, hrest⟩ := Option.bind_eq_some_iff.1 hsteps
    have hT := hS.step (has a List.mem_cons_self past S) hstep
    exact ih (fun b hb => has b (List.mem_cons_of_mem _ hb)) hT hrest

end ResultCache
