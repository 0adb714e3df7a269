import ResultCache.Buffers
import ResultCache.Session.Config
import ResultCache.Session.Deferred
import ResultCache.Statement

/-!
# Sessions

A session serves one unit of work. It keeps the results of its own queries, the output parameters of
procedures it called, the properties that wait for a result, and a buffer in front of every shared
cache it touches. Everything else that its work touches is in the `World`: the objects, the shared
caches, the clock and the data source, whose own state is of any type `τ`.
-/
namespace ResultCache

structure Session where
  config : Session.Config
  /-- the results of the session's queries, and marks for those that are loading -/
  loaded : Entries
  /-- the parameter objects of procedure calls as they were when the call returned -/
  outputs : Table Key Record
  /-- the properties that wait, the first one first -/
  deferred : List Session.Deferred
  buffers : Buffers
  /-- how the session goes through its buffers when its unit of work ends -/
  walk : Buffers.Walk
  /-- how many queries are running inside one another -/
  depth : Nat
  closed : Bool

/-- A new session. -/
def Session.new (c : Session.Config) (walk : Buffers.Walk) : Session :=
  ⟨c, .empty, .empty, [], .empty, walk, 0, false⟩

/-- A new session that goes through its buffers as they were filled. -/
def Session.ofConfig (c : Session.Config) : Session := .new c .insertion

instance : Inhabited Session := ⟨.ofConfig default⟩

structure World (τ : Type) where
  heap : Heap
  pool : Pool
  now : Instant
  source : τ

/-- A session at work in the world. -/
structure State (τ : Type) where
  session : Session
  world : World τ

/-- A data source with states of type `τ`. It may set properties of parameter objects. -/
structure DataSource (τ : Type) where
  query : Statement → Binding → Value → Window → Heap → τ → Result (List Record) × Heap × τ
  update : Statement → Binding → Value → Heap → τ → Result Nat × Heap × τ
  commit : τ → Result Unit × τ
  rollback : τ → Result Unit × τ
  close : τ → τ

/-- One run of a query: a bound statement with the caller's parameter and the rows wanted. -/
structure Query where
  statement : Statement
  param : Value
  window : Window
  binding : Binding

/-- A statement that is run as it stands. -/
def Query.ofStatement (s : Statement) (param : Value) (w : Window) : Query :=
  ⟨s, param, w, s.binding⟩

namespace Session

variable {τ : Type}

/-- The key of a query: the id of the statement, the rows wanted, the text, the values that go in
and the environment, if there is one. -/
def keyOf (H : ComponentHash) (h : Heap) (c : Config) (q : Query) : Key :=
  let components : List Value :=
    [.text q.statement.id, .int q.window.offset, .int q.window.limit, .text q.binding.sql] ++
      q.binding.inputs h q.param ++ c.environment.toList.map Value.text
  .ofComponents H (components.map h.freeze)

/-- Refuses to work in a closed session. -/
def ensureOpen (s : Session) : Result Unit :=
  if s.closed then .error (.closed .session) else .ok ()

/-- Drops the results and output parameters of the session, unless it is closed. -/
def clearLoaded (s : Session) : Session :=
  if s.closed then s else { s with loaded := .empty, outputs := .empty }

/-- Whether the session holds anything for a key, a mark included. -/
def isLoaded (s : Session) (k : Key) : Result Bool :=
  s.ensureOpen.map fun _ => s.loaded.contains k

/-- The shared cache that a statement uses in this session. -/
def sharedCache (s : Session) (st : Statement) : Option CacheRef :=
  if s.config.sharesCaches then st.cache else none

end Session

namespace State

variable {τ : Type}

def heap (s : State τ) : Heap := s.world.heap

def withHeap (s : State τ) (h : Heap) : State τ := { s with world := { s.world with heap := h } }

/-- The key of a query in an open session. -/
def key (H : ComponentHash) (q : Query) (s : State τ) : Result Key :=
  s.session.ensureOpen.map fun _ => Session.keyOf H s.heap s.session.config q

def clearLoaded (s : State τ) : State τ := { s with session := s.session.clearLoaded }

/-- Empties the shared cache of a statement that asks for it, when the unit of work commits. -/
def flush (st : Statement) (s : State τ) : State τ :=
  match s.session.sharedCache st with
  | some r =>
    if st.flushes then
      { s with
        session := { s.session with buffers := s.session.buffers.clear r s.world.pool } }
    else s
  | none => s

/-- Reads a shared cache through the buffer of the session. -/
def readShared (r : CacheRef) (k : Key) (s : State τ) : Result (Option Entry) × State τ :=
  let w := s.world
  let (res, h, bs, p) := s.session.buffers.get w.now w.heap r k w.pool
  (res, ⟨{ s.session with buffers := bs }, { w with heap := h, pool := p, now := w.now + 1 }⟩)

/-- Puts an entry for a shared cache into the buffer of the session. -/
def putShared (r : CacheRef) (k : Key) (e : Entry) (s : State τ) : State τ :=
  { s with
    session := { s.session with buffers := s.session.buffers.put r k e s.world.pool } }

/-- Gives up a key of a shared cache that was not found and could not be loaded. -/
def releaseShared (r : CacheRef) (k : Key) (s : State τ) : State τ :=
  let w := s.world
  let (bs, p) := s.session.buffers.release w.now w.heap r k w.pool
  ⟨{ s.session with buffers := bs }, { w with pool := p, now := w.now + 1 }⟩

/-- The buffers in the order in which the session walks through them now. -/
def walked (s : State τ) : Buffers := s.session.walk.order s.world.now s.session.buffers

/-- Publishes what the buffers hold. -/
def commitBuffers (s : State τ) : Result Unit × State τ :=
  let w := s.world
  let (r, bs, p) := s.walked.commit w.now w.heap w.pool
  (r, ⟨{ s.session with buffers := bs },
    { w with pool := p, now := w.now + s.session.buffers.span }⟩)

/-- Drops what the buffers hold. -/
def rollbackBuffers (s : State τ) : State τ :=
  let w := s.world
  let (bs, p) := s.walked.rollback w.now w.heap w.pool
  ⟨{ s.session with buffers := bs }, { w with pool := p, now := w.now + s.session.buffers.span }⟩

/-- Sets a waiting property now if its result is there, and otherwise when the outermost query is
answered. -/
def defer (d : Session.Deferred) (s : State τ) : Result Unit × State τ :=
  match s.session.ensureOpen with
  | .error f => (.error f, s)
  | .ok () =>
    if d.canLoad s.session.loaded then
      let (r, h) := d.load s.session.loaded s.heap
      (r, s.withHeap h)
    else
      (.ok (), { s with session := { s.session with deferred := s.session.deferred ++ [d] } })

/-- Sets the waiting properties. A fault drops those that come after it. -/
def drain (s : State τ) : Result Unit × State τ :=
  let (r, h) := Session.Deferred.loadAll s.session.loaded s.session.deferred s.heap
  (r, ({ s with session := { s.session with deferred := [] } }).withHeap h)

variable (D : DataSource τ)

/-- Runs a statement that changes data. It empties the session's results, and the shared cache of
its namespace when the unit of work commits. -/
def update (st : Statement) (param : Value) (s : State τ) : Result Nat × State τ :=
  match s.session.ensureOpen with
  | .error f => (.error f, s)
  | .ok () =>
    let s := (s.flush st).clearLoaded
    let (r, h, t) := D.update st st.binding param s.heap s.world.source
    (r, { s with world := { s.world with heap := h, source := t } })

/-- Lets the data source do something that touches nothing else. -/
def source (f : τ → Result Unit × τ) (s : State τ) : Result Unit × State τ :=
  let (r, t) := f s.world.source
  (r, { s with world := { s.world with source := t } })

/-- Ends the unit of work. If the data source fails to commit, the buffers stay as they are. -/
def commit (required : Bool) (s : State τ) : Result Unit × State τ :=
  if s.session.closed then (.error (.closed .commit), s)
  else
    let s := s.clearLoaded
    if required then
      match s.source D.commit with
      | (.error f, s) => (.error f, s)
      | (.ok (), s) => s.commitBuffers
    else s.commitBuffers

/-- Drops the session's results and lets the data source roll back if that is required. -/
def rollbackLocal (required : Bool) (s : State τ) : Result Unit × State τ :=
  let s := s.clearLoaded
  if required then s.source D.rollback else (.ok (), s)

/-- Takes the unit of work back. The buffers are dropped even if the data source fails. -/
def rollback (required : Bool) (s : State τ) : Result Unit × State τ :=
  match s.session.ensureOpen with
  | .error f => (.error f, s)
  | .ok () =>
    let (r, s) := s.rollbackLocal D required
    (r, s.rollbackBuffers)

/-- Ends the session: publishes what the buffers hold, or drops it if the unit of work is taken
back. Only what publishing reports counts. A closed session stays closed. -/
def close (force : Bool) (s : State τ) : Result Unit × State τ :=
  if s.session.closed then (.ok (), s)
  else
    let (r, s) := if force then (.ok (), s.rollbackBuffers) else s.commitBuffers
    let (_, s) := s.rollbackLocal D force
    (r, { s with
      session := { s.session with deferred := [], closed := true }
      world := { s.world with source := D.close s.world.source } })

end State
end ResultCache
