import ResultCache.Proofs.Session.Source
import ResultCache.Session.Nested

/-!
# Running nested selects

What an object with nested properties takes, said by what it does to a session: each property is
deferred if the session holds anything for its key, and otherwise its query is answered and its value
set (`run_fill`); properties are filled in order, and rows become objects in order, up to the first
fault (`run_fillAll`, `run_objects`).
-/
namespace ResultCache

/-- What a session works with when statements have nested properties. -/
def Env.nested {τ : Type} (H : ComponentHash) (D : DataSource τ) (ns : String → List NestedSelect) :
    Env τ := ⟨H, D, Materializer.nested τ ns⟩

namespace Assembly

variable {τ α β : Type} (env : Env τ) (nested : Answering τ)

theorem run_ask_bind (c : Call β) (f : β → Assembly τ α) (s : State τ) :
    ((ask c).bind f).run env nested s =
      (c.run env nested s).bind fun p => (f p.1).run env nested p.2 := rfl

theorem run_need_bind (c : Call (Result β)) (f : β → Assembly τ α) (s : State τ) :
    ((need c).bind f).run env nested s =
      (c.run env nested s).bind fun p =>
        match p.1 with
        | .ok b => (f b).run env nested p.2
        | .error e => some (.error e, p.2) := by
  rw [run_bind, need, run]
  cases c.run env nested s with
  | none => rfl
  | some p =>
    obtain ⟨r, s⟩ := p
    cases r <;> rfl

theorem run_done_bind (r : Result β) (f : β → Assembly τ α) (s : State τ) :
    ((done r).bind f).run env nested s =
      match r with
      | .ok b => (f b).run env nested s
      | .error e => some (.error e, s) := by
  cases r <;> rfl

end Assembly

/-- A property that waits is only set to what the results for its key give it. -/
theorem Session.Deferred.load_eq_ok {d : Session.Deferred} {loaded : Entries} {h h' : Heap}
    {ws : List Value} (hws : loaded.get? d.key = some (.rows ws))
    (hload : d.load loaded h = (.ok (), h')) :
    ∃ v, d.target.extract ws = .ok v ∧ h.write d.object d.property v = h' := by
  rw [load, hws] at hload
  dsimp only [Option.bind_some, Entry.results?] at hload
  split at hload
  · rename_i v hv
    exact ⟨v, hv, congrArg Prod.snd hload⟩
  · cases hload

namespace NestedSelect

variable {τ : Type}

/-- The query that fills a property of an object. -/
def query (n : NestedSelect) (o : ObjId) (h : Heap) : Query :=
  .ofStatement n.statement (.ofOption (h.read o n.column)) .unbounded

/-- What becomes of the property when its query is answered. -/
def settle (n : NestedSelect) (o : ObjId) (p : Reply × State τ) : Result Unit × State τ :=
  match p.1.result.bind n.target.extract with
  | .error f => (.error f, p.2)
  | .ok v => (.ok (), p.2.withHeap (p.2.heap.write o n.property v))

/-- A property is only set to what rows of an answer give it. -/
theorem settle_eq_ok {n : NestedSelect} {o : ObjId} {reply : Reply} {s t : State τ}
    (h : n.settle o (reply, s) = (.ok (), t)) :
    ∃ ws v, reply.result = .ok ws ∧ n.target.extract ws = .ok v ∧
      s.withHeap (s.heap.write o n.property v) = t := by
  rw [settle] at h
  dsimp only at h
  cases hreply : reply.result with
  | error f =>
    rw [hreply] at h
    cases h
  | ok ws =>
    rw [hreply, Except.bind] at h
    cases hv : n.target.extract ws with
    | error f =>
      rw [hv] at h
      cases h
    | ok v =>
      rw [hv] at h
      exact ⟨ws, v, rfl, hv, congrArg Prod.snd h⟩

variable (env : Env τ) (nested : Answering τ)

theorem run_fill (n : NestedSelect) (o : ObjId) (s : State τ) :
    (n.fill o).run env nested s =
      match s.session.ensureOpen with
      | .error f => some (.error f, s)
      | .ok () =>
        let q := n.query o s.heap
        let k := Session.keyOf env.hash s.heap s.session.config q
        if s.session.loaded.contains k then some (s.defer ⟨o, n.property, k, n.target⟩)
        else (nested q k false s).map (n.settle o) := by
  have hq : Query.ofStatement n.statement (.ofOption (s.heap.read o n.column)) .unbounded =
      n.query o s.heap := rfl
  rw [fill, Assembly.run]
  dsimp only
  rw [Assembly.run_need_bind, Call.run, Option.bind_some, State.key, hq]
  cases hopen : s.session.ensureOpen with
  | error f => rfl
  | ok u =>
    dsimp only [Except.map]
    generalize Session.keyOf env.hash s.heap s.session.config (n.query o s.heap) = k
    rw [Assembly.run_need_bind, Call.run, Option.bind_some, Session.isLoaded, hopen]
    dsimp only [Except.map]
    by_cases hk : s.session.loaded.contains k = true
    · rw [if_pos hk, if_pos hk]
      rfl
    · rw [if_neg hk, if_neg hk, Assembly.run_ask_bind, Call.run]
      cases nested (n.query o s.heap) k false s with
      | none => rfl
      | some p =>
        rw [Option.bind_some, Assembly.run_done_bind, Option.map_some, settle]
        cases p.1.result.bind n.target.extract <;> rfl

theorem run_fillAll_cons (n : NestedSelect) (ns : List NestedSelect) (o : ObjId) (s : State τ) :
    (fillAll o (n :: ns)).run env nested s = ((n.fill o).run env nested s).bind fun p =>
      match p.1 with
      | .ok () => (fillAll o ns).run env nested p.2
      | .error f => some (.error f, p.2) := by
  rw [fillAll, Assembly.run_bind]
  cases (n.fill o).run env nested s with
  | none => rfl
  | some p =>
    obtain ⟨r, s⟩ := p
    cases r <;> rfl

/-- The list of objects, with one more in front. -/
def consObject (o : ObjId) (p : Result (List Value) × State τ) : Result (List Value) × State τ :=
  (p.1.map (.object o :: ·), p.2)

theorem run_objects_cons (ns : List NestedSelect) (r : Record) (rs : List Record) (s : State τ) :
    (objects ns (r :: rs)).run env nested s =
      ((fillAll (s.heap.alloc r).1 ns).run env nested (s.withHeap (s.heap.alloc r).2)).bind fun p =>
        match p.1 with
        | .ok () => ((objects ns rs).run env nested p.2).map (consObject (s.heap.alloc r).1)
        | .error f => some (.error f, p.2) := by
  rw [objects, Assembly.run]
  dsimp only
  rw [Assembly.run_bind]
  cases (fillAll (s.heap.alloc r).1 ns).run env nested (s.withHeap (s.heap.alloc r).2) with
  | none => rfl
  | some p =>
    obtain ⟨res, t⟩ := p
    rw [Option.bind_some, Option.bind_some]
    cases res with
    | error f => rfl
    | ok u =>
      dsimp only
      rw [Assembly.run_bind]
      cases (objects ns rs).run env nested t with
      | none => rfl
      | some p =>
        obtain ⟨vs, u⟩ := p
        cases vs <;> rfl

end NestedSelect

end ResultCache
