import ResultCache.Session.Assembly

/-!
# Running queries

A query is answered by the shared cache of its statement, if the statement and the session use one,
then by the results the session holds, and then by the data source. While its rows are on their way
the session holds a mark for its key, so a query further in that asks for the same key fails instead
of running in circles. When the outermost query is answered, the properties that wait are set.

Rows become results by an assembly, which may run queries inside the query. How deep they nest is
limited by a number; a run that would need more is no run (`none`), which is apart from every fault.
-/
namespace ResultCache

/-- What a session works with. -/
structure Env (τ : Type) where
  hash : ComponentHash
  source : DataSource τ
  materializer : Materializer τ

/-- A run of a session that changes its state, unless queries nest too deep. -/
abbrev Run (τ α : Type) := State τ → Option (α × State τ)

/-- How a query under a key is answered, by rows or by handing them over one by one. -/
abbrev Answering (τ : Type) := Query → Key → Bool → Run τ Reply

variable {τ : Type}

namespace Call

/-- Answers a call, where `nested` answers queries. -/
def run (env : Env τ) (nested : Answering τ) {β : Type} : Call β → Run τ β
  | .query q (some k) handled, s => nested q k handled s
  | .query q none handled, s =>
    match s.key env.hash q with
    | .ok k => nested q k handled s
    | .error f => some (.ofResult (.error f), s)
  | .key q, s => some (s.key env.hash q, s)
  | .isLoaded k, s => some (s.session.isLoaded k, s)
  | .defer d, s => some (s.defer d)
  | .update st param, s => some (s.update env.source st param)
  | .commit required, s => some (s.commit env.source required)
  | .rollback required, s => some (s.rollback env.source required)
  | .close force, s => some (s.close env.source force)
  | .clearLoaded, s => some ((), s.clearLoaded)
  | .isClosed, s => some (s.session.closed, s)
  | .config, s => some (s.session.config, s)

end Call

namespace Assembly

/-- Runs an assembly, where `nested` answers queries. -/
def run (env : Env τ) (nested : Answering τ) {α : Type} : Assembly τ α → Run τ (Result α)
  | .done r, s => some (r, s)
  | .heap next, s => (next s.heap).run env nested s
  | .alloc r next, s =>
    let (o, h) := s.heap.alloc r
    (next o).run env nested (s.withHeap h)
  | .write o name v next, s => next.run env nested (s.withHeap (s.heap.write o name v))
  | .note f next, s =>
    next.run env nested { s with world := { s.world with source := f s.world.source } }
  | .call c next, s => (c.run env nested s).bind fun (b, s) => (next b).run env nested s

end Assembly

namespace State

/-- Marks a key as loading. -/
def mark (k : Key) (s : State τ) : State τ :=
  { s with session := { s.session with loaded := s.session.loaded.insert k .loading } }

/-- Drops what the session holds for a key. -/
def unmark (k : Key) (s : State τ) : State τ :=
  { s with session := { s.session with loaded := s.session.loaded.erase k } }

/-- Keeps the rows of a key. -/
def keepRows (k : Key) (vs : List Value) (s : State τ) : State τ :=
  { s with session := { s.session with loaded := s.session.loaded.insert k (.rows vs) } }

/-- Keeps the parameter object of a procedure call as it is now. -/
def keepOutputs (q : Query) (k : Key) (s : State τ) : State τ :=
  if q.statement.isCallable then
    match q.param with
    | .object o =>
      match s.heap.record? o with
      | some r => { s with session := { s.session with outputs := s.session.outputs.insert k r } }
      | none => s
    | _ => s
  else s

/-- Sets the output parameters of a procedure call that was answered without calling it, to what
they were when it was called. -/
def restoreOutputs (q : Query) (k : Key) (s : State τ) : State τ :=
  if q.statement.isCallable then
    match s.session.outputs.get? k, q.param with
    | some r, .object o =>
      s.withHeap <| (q.binding.parameters.filter (·.direction ≠ .input)).foldl
        (fun h p => h.write o p.name (.ofOption (r.get? p.name))) s.heap
    | _, _ => s
  else s

def enter (s : State τ) : State τ :=
  { s with session := { s.session with depth := s.session.depth + 1 } }

def leave (s : State τ) : State τ :=
  { s with session := { s.session with depth := s.session.depth - 1 } }

variable (env : Env τ) (nested : Answering τ)

/-- Gets rows from the data source and makes results of them. -/
def load (q : Query) (handled : Bool) : Run τ Reply := fun s =>
  let (rows, h, t) :=
    env.source.query q.statement q.binding q.param q.window s.heap s.world.source
  let s := { s with world := { s.world with heap := h, source := t } }
  match rows with
  | .error f => some (.ofResult (.error f), s)
  | .ok rows =>
    ((env.materializer q.statement rows).run env nested s).map fun
      | (.error f, s) => (.ofResult (.error f), s)
      | (.ok vs, s) => (if handled then ⟨.ok [], vs⟩ else .ofResult (.ok vs), s)

/-- Loads results under a mark and keeps them, unless they were handed over one by one. -/
def fetch (q : Query) (k : Key) (handled : Bool) : Run τ Reply := fun s =>
  ((s.mark k).load env nested q handled).map fun (reply, s) =>
    let s := s.unmark k
    match reply.result with
    | .error _ => (reply, s)
    | .ok vs => (reply, (if handled then s else s.keepRows k vs).keepOutputs q k)

/-- Answers from the results the session holds, or else loads them. -/
def lookup (q : Query) (k : Key) (handled : Bool) : Run τ Reply := fun s =>
  if handled then s.fetch env nested q k handled
  else
    match s.session.loaded.get? k with
    | some .loading =>
      some (.ofResult (.error (.execution (.reentered q.statement.id k.text))), s)
    | some e =>
      match e.results? with
      | some vs => some (.ofResult (.ok vs), s.restoreOutputs q k)
      | none => s.fetch env nested q k handled
    | none => s.fetch env nested q k handled

/-- What remains to be done when the outermost query is answered: after a fault the waiting
properties are dropped, otherwise they are set, and results that are kept for one statement only are
dropped. -/
def finish (reply : Reply) (s : State τ) : Reply × State τ :=
  match reply.result with
  | .error _ => (reply, { s with session := { s.session with deferred := [] } })
  | .ok vs =>
    let (r, s) := s.drain
    let s := if s.session.config.scope = .statement then s.clearLoaded else s
    (⟨r.map fun _ => vs, reply.handled⟩, s)

/-- Answers a query from what belongs to the session and from the data source. -/
def answerLocal (q : Query) (k : Key) (handled : Bool) : Run τ Reply := fun s =>
  let s := if s.session.depth = 0 && q.statement.flushes then s.clearLoaded else s
  (s.enter.lookup env nested q k handled).map fun (reply, s) =>
    let s := s.leave
    if 0 < s.session.depth then (reply, s) else s.finish reply

/-- Answers a query from a shared cache, or else locally, and buffers the answer for the cache. -/
def answerShared (r : CacheRef) (q : Query) (k : Key) : Run τ Reply := fun s =>
  if q.statement.isCallable && Statement.setsParameters q.binding then
    some (.ofResult (.error (.unsupported (.outParameters q.statement.id))), s)
  else
    match s.readShared r k with
    | (.error f, s) => some (.ofResult (.error f), s)
    | (.ok e, s) =>
      match e.bind Entry.results? with
      | some vs => some (.ofResult (.ok vs), s)
      | none =>
        (s.answerLocal env nested q k false).map fun (reply, s) =>
          match reply.result with
          | .ok vs => (reply, s.putShared r k (.rows vs))
          | .error _ => (reply, s.releaseShared r k)

/-- Answers a query. Rows that are handed over one by one never come from a shared cache. -/
def answerOnce (q : Query) (k : Key) (handled : Bool) : Run τ Reply := fun s =>
  match s.session.ensureOpen with
  | .error f => some (.ofResult (.error f), s)
  | .ok () =>
    match s.session.sharedCache q.statement with
    | none => s.answerLocal env nested q k handled
    | some r =>
      let s := s.flush q.statement
      if !q.statement.usesCache || handled then s.answerLocal env nested q k handled
      else s.answerShared env nested r q k

end State

/-- Answers queries that nest less than `limit` deep. -/
def Env.answer (env : Env τ) : Nat → Answering τ
  | 0, _, _, _ => fun _ => none
  | limit + 1, q, k, handled => State.answerOnce env (env.answer limit) q k handled

/-- Answers a call from outside, where queries nest less than `limit` deep. -/
def Env.perform (env : Env τ) (limit : Nat) {β : Type} (c : Call β) : Run τ β :=
  c.run env (env.answer limit)

end ResultCache
