import ResultCache.Proofs.Session.Outermost

/-!
# What happened in a session

The story of a call lists what happened while a session answered it, the latest first: when the data
source was asked, which rows became results, what each query was answered with, and when buffers
were published or dropped (`Happening`). A story is read off the run itself: it is computed from the
states that the run goes through, so it needs no notes that the run would have to carry along, and
it covers whatever an assembly asks the session for, a commit inside a query included.

`Follows` lists the moves that stories and states are made of together. An invariant of states and
of what happened so far that each move keeps is kept by every query and every call
(`Follows.answer`, `Follows.perform`).
-/
namespace ResultCache

/-- The rows that a query gives if it succeeds, those it handed over one by one included. -/
def Reply.rows (reply : Reply) : List Value :=
  match reply.result with
  | .ok vs => reply.handled ++ vs
  | .error _ => []

/-- Something that happens while a session works. -/
inductive Happening where
  /-- the data source is asked for the rows of a key -/
  | asks (k : Key)
  /-- what the data source returned for a key has become results -/
  | loads (k : Key) (vs : List Value)
  /-- a query ends with these rows, and this is what objects are like then; `cache` is the shared
  cache that had them, if it was one -/
  | answers (k : Key) (cache : Option CacheRef) (vs : List Value) (h : Heap)
  /-- a statement changes data, and a shared cache is to be cleared for it -/
  | updates (r : CacheRef)
  /-- the buffers are published, with objects as they are now -/
  | publishes (bs : Buffers) (h : Heap)
  /-- the buffers are dropped -/
  | drops

/-- Whether it ends the unit of work. -/
def Happening.ends : Happening → Bool
  | .publishes _ _ | .drops => true
  | _ => false

namespace Happening

/-- What happened, with rows as they were when a query was answered and without buffers. -/
inductive Brief where
  | asks (k : Key)
  | loads (k : Key) (vs : List Value)
  | answers (k : Key) (cache : Option CacheRef) (rows : List Frozen)
  | updates (r : CacheRef)
  | publishes
  | drops
  deriving DecidableEq

def brief : Happening → Brief
  | asks k => .asks k
  | loads k vs => .loads k vs
  | answers k c vs h => .answers k c (vs.map h.freeze)
  | updates r => .updates r
  | publishes _ _ => .publishes
  | drops => .drops

variable {e : Happening} {k : Key}

theorem eq_asks (h : e.brief = .asks k) : e = .asks k := by
  cases e <;> cases h
  rfl

theorem eq_loads {vs : List Value} (h : e.brief = .loads k vs) : e = .loads k vs := by
  cases e <;> cases h
  rfl

theorem eq_answers {c : Option CacheRef} {fs : List Frozen} (h : e.brief = .answers k c fs) :
    ∃ vs i, e = .answers k c vs i ∧ vs.map i.freeze = fs := by
  cases e <;> cases h
  exact ⟨_, _, rfl, rfl⟩

theorem eq_updates {r : CacheRef} (h : e.brief = .updates r) : e = .updates r := by
  cases e <;> cases h
  rfl

theorem eq_publishes (h : e.brief = .publishes) : ∃ bs i, e = .publishes bs i := by
  cases e <;> cases h
  exact ⟨_, _, rfl⟩

end Happening

variable {τ : Type}

/-- What happens while a query is answered. -/
abbrev Telling (τ : Type) := Query → Key → Bool → State τ → List Happening

namespace Call

/-- What happens in a call that is no query. -/
def told (env : Env τ) {β : Type} : Call β → State τ → List Happening
  | .update st _, s =>
    if s.session.closed then []
    else
      match s.session.sharedCache st with
      | some r =>
        if st.flushes then [.updates (s.session.buffers.find s.world.pool r).1] else []
      | none => []
  | .commit required, s =>
    if s.session.closed then []
    else if required then
      match (env.source.commit s.world.source).1 with
      | .ok () => [.publishes s.session.buffers s.heap]
      | .error _ => []
    else [.publishes s.session.buffers s.heap]
  | .rollback _, s => if s.session.closed then [] else [.drops]
  | .close force, s =>
    if s.session.closed then []
    else if force then [.drops]
    else [.publishes s.session.buffers s.heap]
  | _, _ => []

/-- What happens in a call, where `tell` tells of queries. -/
def story (env : Env τ) (tell : Telling τ) {β : Type} : Call β → State τ → List Happening
  | .query q (some k) handled, s => tell q k handled s
  | .query q none handled, s =>
    match s.key env.hash q with
    | .ok k => tell q k handled s
    | .error _ => []
  | c, s => c.told env s

end Call

/-- What happens while an assembly runs. -/
def Assembly.story (env : Env τ) (nested : Answering τ) (tell : Telling τ) {α : Type} :
    Assembly τ α → State τ → List Happening
  | .done _, _ => []
  | .heap next, s => (next s.heap).story env nested tell s
  | .alloc r next, s =>
    let (o, h) := s.heap.alloc r
    (next o).story env nested tell (s.withHeap h)
  | .write o name v next, s => next.story env nested tell (s.withHeap (s.heap.write o name v))
  | .note f next, s =>
    next.story env nested tell { s with world := { s.world with source := f s.world.source } }
  | .call c next, s =>
    match c.run env nested s with
    | some (b, t) => (next b).story env nested tell t ++ c.story env tell s
    | none => []

namespace State

variable (env : Env τ) (nested : Answering τ) (tell : Telling τ)

/-- What happens while results are made of what the data source returns. -/
def loadStory (q : Query) (s : State τ) : List Happening :=
  let (rows, h, t) :=
    env.source.query q.statement q.binding q.param q.window s.heap s.world.source
  match rows with
  | .error _ => []
  | .ok rows =>
    (env.materializer q.statement rows).story env nested tell
      { s with world := { s.world with heap := h, source := t } }

def fetchStory (q : Query) (k : Key) (handled : Bool) (s : State τ) : List Happening :=
  match (s.mark k).load env nested q handled with
  | some (⟨.ok vs, gone⟩, _) =>
    .loads k (Reply.rows ⟨.ok vs, gone⟩) :: ((s.mark k).loadStory env nested tell q ++ [.asks k])
  | some (⟨.error _, _⟩, _) => (s.mark k).loadStory env nested tell q ++ [.asks k]
  | none => []

/-- Whether a query is loaded rather than answered from what the session holds. -/
def fetches (k : Key) (handled : Bool) (s : State τ) : Bool :=
  handled ||
    match s.session.loaded.get? k with
    | some .loading => false
    | some e => e.results?.isNone
    | none => true

def lookupStory (q : Query) (k : Key) (handled : Bool) (s : State τ) : List Happening :=
  if s.fetches k handled then s.fetchStory env nested tell q k handled else []

def localStory (q : Query) (k : Key) (handled : Bool) (s : State τ) : List Happening :=
  match s.answerLocal env nested q k handled with
  | some (reply, t) =>
    .answers k none reply.rows t.heap :: (s.opened q).enter.lookupStory env nested tell q k handled
  | none => []

/-- The shared cache that a read through the buffers of the session asks, if it comes to that. -/
def server (r : CacheRef) (k : Key) (s : State τ) : Option CacheRef :=
  let (target, b) := s.session.buffers.find s.world.pool r
  if b.pending.contains k then none else some target

def sharedStory (r : CacheRef) (q : Query) (k : Key) (s : State τ) : List Happening :=
  if q.statement.isCallable && Statement.setsParameters q.binding then [.answers k none [] s.heap]
  else
    match s.readShared r k with
    | (.error _, u) => [.answers k none [] u.heap]
    | (.ok e, u) =>
      match e.bind Entry.results? with
      | some vs => [.answers k (s.server r k) vs u.heap]
      | none => u.localStory env nested tell q k false

def onceStory (q : Query) (k : Key) (handled : Bool) (s : State τ) : List Happening :=
  match s.session.ensureOpen with
  | .error _ => [.answers k none [] s.heap]
  | .ok () =>
    match s.session.sharedCache q.statement with
    | none => s.localStory env nested tell q k handled
    | some r =>
      let s := s.flush q.statement
      if !q.statement.usesCache || handled then s.localStory env nested tell q k handled
      else s.sharedStory env nested tell r q k

end State

/-- What happens while queries that nest less than `limit` deep are answered. -/
def Env.story (env : Env τ) : Nat → Telling τ
  | 0, _, _, _ => fun _ => []
  | limit + 1, q, k, handled => State.onceStory env (env.answer limit) (env.story limit) q k handled

/-- What happens in a call from outside. -/
def Env.tells (env : Env τ) (limit : Nat) {β : Type} (c : Call β) (s : State τ) : List Happening :=
  c.story env (env.story limit) s

/-- An invariant that every move of a session keeps. `Sound d ks L s` says it of the state `s` after
`L` happened, when `d` queries are running inside one another and the data source is asked for
`ks`. `Backs L k vs` says of what happened that it accounts for rows of a key. The session and its
assemblies are asked only for what `P` allows, and outermost queries have statements that `Opens`
allows. -/
structure Follows (env : Env τ) (P : ∀ β : Type, Call β → Prop) (Opens : Statement → Prop)
    (Sound : Nat → List Key → List Happening → State τ → Prop)
    (Backs : List Happening → Key → List Value → Prop) : Prop where
  confined : ∀ st rs, (env.materializer st rs).Confined P
  /-- a call that is no query -/
  quick : ∀ {β : Type} {c : Call β} {d ks L s}, P β c → c.isQuery = false → Sound d ks L s →
    Sound d ks (c.told env s ++ L) (c.after env s)
  /-- nothing changes of what the session holds of results and buffers, or of the caches -/
  quiet : ∀ {d ks L} {s t : State τ}, Sound d ks L s → t.session.config = s.session.config →
    t.session.depth = s.session.depth → t.session.loaded = s.session.loaded →
    t.session.buffers = s.session.buffers → t.world.pool = s.world.pool → Sound d ks L t
  flush : ∀ {d ks L s} st, Sound d ks L s → Sound d ks L (s.flush st)
  read : ∀ {d ks L s} r k, Sound d ks L s → Sound d ks L (s.readShared r k).2
  /-- a shared cache or a buffer has the rows of a query -/
  served : ∀ {d ks L s} {r : CacheRef} {k : Key} {e : Entry} {vs : List Value}, Sound d ks L s →
    (s.readShared r k).1 = .ok (some e) → e.results? = some vs →
    Sound d ks (.answers k (s.server r k) vs (s.readShared r k).2.heap :: L) (s.readShared r k).2
  /-- a query ends with rows of the session's own, or without rows -/
  answered : ∀ {d ks L s k vs} h, Sound d ks L s → vs = [] ∨ Backs L k vs →
    Sound d ks (.answers k none vs h :: L) s
  /-- rows that a query was just answered with are buffered for a shared cache -/
  put : ∀ {d ks L s k vs} r, Sound d ks (.answers k none vs s.heap :: L) s → Backs L k vs →
    Sound d ks (.answers k none vs s.heap :: L) (s.putShared r k (.rows vs))
  release : ∀ {d ks L s} r k, Sound d ks L s → Sound d ks L (s.releaseShared r k)
  /-- an outermost query of a statement that flushes begins anew -/
  anew : ∀ {ks L s st}, Opens st → st.flushes = true → Sound 0 ks L s → Sound 0 ks L s.clearLoaded
  enter : ∀ {d ks L s}, Sound d ks L s → Sound (d + 1) ks L s.enter
  leave : ∀ {d ks L s}, Sound (d + 1) ks L s → Sound d ks L s.leave
  finish : ∀ {ks L s} reply, Sound 0 ks L s → Sound 0 ks L (s.finish reply).2
  depth : ∀ {d ks L s}, Sound d ks L s → s.session.depth = d
  /-- the session holds results -/
  held : ∀ {d ks L s k e vs}, Sound d ks L s → s.session.loaded.get? k = some e →
    e.results? = some vs → Backs L k vs
  /-- the data source is asked, under a mark -/
  mark : ∀ {q : Query} {key : Option Key} {k : Key} {handled : Bool} {d ks L s},
    P _ (.query q key handled) → s.fetches k handled = true → Sound d ks L s →
    Sound d (k :: ks) (.asks k :: L) (s.mark k)
  /-- a load failed -/
  unmark : ∀ {k d ks L s}, Sound d (k :: ks) L s → Sound d ks L (s.unmark k)
  kept : ∀ {q : Query} {key : Option Key} {k : Key} {d ks L s} vs, P _ (.query q key false) →
    Sound d (k :: ks) L s → Sound d ks (.loads k vs :: L) ((s.unmark k).keepRows k vs)
  /-- rows were loaded and handed over one by one -/
  handed : ∀ {q : Query} {key : Option Key} {k : Key} {d ks L s} vs, P _ (.query q key true) →
    Sound d (k :: ks) L s → Sound d ks (.loads k vs :: L) (s.unmark k)
  backs_loads : ∀ L k vs, Backs (.loads k vs :: L) k vs

/-- What happened accounts for the rows of a reply, which are its result unless they were handed
over one by one. -/
structure Reply.Accounted (Backs : List Happening → Key → List Value → Prop) (L : List Happening)
    (k : Key) (handled : Bool) (reply : Reply) : Prop where
  backs : ∀ vs, reply.result = .ok vs → Backs L k reply.rows
  rows : ∀ vs, reply.result = .ok vs → handled = false → reply.rows = vs

theorem Reply.accounted_error {Backs : List Happening → Key → List Value → Prop}
    {L : List Happening} {k : Key} {handled : Bool} {reply : Reply} {f : Fault}
    (hf : reply.result = .error f) : reply.Accounted Backs L k handled := by
  refine ⟨fun vs hvs => ?_, fun vs hvs => ?_⟩
  · rw [hf] at hvs
    cases hvs
  · rw [hf] at hvs
    cases hvs

theorem State.rows_of_load {env : Env τ} {nested : Answering τ} {q : Query} {s t : State τ}
    {reply : Reply} {vs : List Value} (h : s.load env nested q false = some (reply, t))
    (hvs : reply.result = .ok vs) : reply.rows = vs := by
  rw [load] at h
  generalize env.source.query q.statement q.binding q.param q.window s.heap s.world.source = x at h
  obtain ⟨f | rows, h', w⟩ := x
  · cases h
    cases hvs
  · obtain ⟨⟨r, u⟩, -, hreply⟩ := Option.map_eq_some_iff.1 h
    cases r with
    | error f =>
      cases hreply
      cases hvs
    | ok ws =>
      cases hreply
      cases hvs
      rfl

/-- The ending of an outermost query adds no rows. -/
theorem Reply.Accounted.finish {Backs : List Happening → Key → List Value → Prop}
    {L : List Happening} {k : Key} {handled : Bool} {reply : Reply}
    (hreply : reply.Accounted Backs L k handled) (s : State τ) :
    (s.finish reply).1.Accounted Backs L k handled := by
  have hrows : ∀ vs, (s.finish reply).1.result = .ok vs →
      reply.result = .ok vs ∧ (s.finish reply).1.rows = reply.rows := by
    intro vs hvs
    obtain ⟨hbefore, hdrain⟩ := State.result_finish hvs
    refine ⟨hbefore, ?_⟩
    rw [State.finish_ok hbefore, hdrain, Reply.rows, Reply.rows, hbefore]
    rfl
  refine ⟨fun vs hvs => ?_, fun vs hvs hhandled => ?_⟩
  · obtain ⟨hbefore, heq⟩ := hrows vs hvs
    rw [heq]
    exact hreply.backs vs hbefore
  · obtain ⟨hbefore, heq⟩ := hrows vs hvs
    rw [heq]
    exact hreply.rows vs hbefore hhandled

namespace Follows

variable {env : Env τ} {P : ∀ β : Type, Call β → Prop} {Opens : Statement → Prop}
  {Sound : Nat → List Key → List Happening → State τ → Prop}
  {Backs : List Happening → Key → List Value → Prop}
  (hS : Follows env P Opens Sound Backs) {nested : Answering τ} {tell : Telling τ} {d : Nat}
  {ks : List Key} {L : List Happening} {s t : State τ}

include hS

theorem withHeap (h : Heap) (hs : Sound d ks L s) : Sound d ks L (s.withHeap h) :=
  hS.quiet hs rfl rfl rfl rfl rfl

theorem keepOutputs (q : Query) (k : Key) (hs : Sound d ks L s) :
    Sound d ks L (s.keepOutputs q k) := by
  obtain ⟨outputs, hkeep⟩ := s.keepOutputs_outputs q k
  rw [hkeep]
  exact hS.quiet hs rfl rfl rfl rfl rfl

theorem restoreOutputs (q : Query) (k : Key) (hs : Sound d ks L s) :
    Sound d ks L (s.restoreOutputs q k) := by
  obtain ⟨h, hrestore⟩ := s.restoreOutputs_heap q k
  rw [hrestore]
  exact hS.withHeap h hs

/-- The queries inside one that runs at depth `d` keep the invariant. -/
def Inside (P : ∀ β : Type, Call β → Prop)
    (Sound : Nat → List Key → List Happening → State τ → Prop) (nested : Answering τ)
    (tell : Telling τ) (d : Nat) : Prop :=
  ∀ {q : Query} {key : Option Key} {k : Key} {handled : Bool} {ks L} {s t : State τ}
    {reply : Reply},
    P _ (.query q key handled) → nested q k handled s = some (reply, t) → Sound d ks L s →
    Sound d ks (tell q k handled s ++ L) t

theorem call_quick {β : Type} {c : Call β} (hc : P β c) (hquery : c.isQuery = false) {b : β}
    (h : c.run env nested s = some (b, t)) (hs : Sound d ks L s) :
    Sound d ks (c.story env tell s ++ L) t := by
  have hquick := hS.quick hc hquery hs
  rw [Call.eq_after hquery h]
  cases c with
  | query q key handled => cases hquery
  | _ => exact hquick

omit hS in
/-- A query that is asked for is answered under some key, or it fails without one. -/
theorem query_cases (tell : Telling τ) {q : Query} {key : Option Key} {handled : Bool}
    {reply : Reply}
    (h : (Call.query q key handled).run env nested s = some (reply, t)) :
    (∃ k, nested q k handled s = some (reply, t) ∧
      (Call.query q key handled).story env tell s = tell q k handled s) ∨
    (t = s ∧ (Call.query q key handled).story env tell s = []) := by
  cases key with
  | some k => exact .inl ⟨k, h, rfl⟩
  | none =>
    rw [Call.run] at h
    rw [Call.story]
    cases hkey : s.key env.hash q with
    | ok k =>
      rw [hkey] at h
      exact .inl ⟨k, h, rfl⟩
    | error f =>
      rw [hkey] at h
      cases h
      exact .inr ⟨rfl, rfl⟩

theorem call (hnested : Inside P Sound nested tell d) {β : Type} {c : Call β} (hc : P β c) {b : β}
    (h : c.run env nested s = some (b, t)) (hs : Sound d ks L s) :
    Sound d ks (c.story env tell s ++ L) t := by
  cases hquery : c.isQuery with
  | false => exact hS.call_quick hc hquery h hs
  | true =>
    cases c with
    | query q key handled =>
      obtain ⟨k, hk, hstory⟩ | ⟨rfl, hstory⟩ := query_cases tell h
      · rw [hstory]
        exact hnested hc hk hs
      · rw [hstory]
        exact hs
    | _ => cases hquery

theorem assembly (hnested : Inside P Sound nested tell d) {α : Type} {a : Assembly τ α}
    (ha : a.Confined P) {r : Result α} (h : a.run env nested s = some (r, t))
    (hs : Sound d ks L s) : Sound d ks (a.story env nested tell s ++ L) t := by
  induction a generalizing s L with
  | done r =>
    cases h
    exact hs
  | heap next ih => exact ih _ (ha _) h hs
  | alloc r next ih => exact ih _ (ha _) h (hS.withHeap _ hs)
  | write o name v next ih => exact ih ha h (hS.withHeap _ hs)
  | note f next ih => exact ih ha h (hS.quiet hs rfl rfl rfl rfl rfl)
  | call c next ih =>
    rw [Assembly.run] at h
    obtain ⟨⟨b, u⟩, hcall, hrest⟩ := Option.bind_eq_some_iff.1 h
    have hu := ih b (ha.2 b) hrest (hS.call hnested ha.1 hcall hs)
    rw [Assembly.story, hcall]
    rw [← List.append_assoc] at hu
    exact hu

theorem load (hnested : Inside P Sound nested tell d) {q : Query} {handled : Bool} {reply : Reply}
    (h : s.load env nested q handled = some (reply, t)) (hs : Sound d ks L s) :
    Sound d ks (s.loadStory env nested tell q ++ L) t := by
  rw [State.load] at h
  rw [State.loadStory]
  generalize env.source.query q.statement q.binding q.param q.window s.heap s.world.source = x
    at h ⊢
  obtain ⟨rows, h', w⟩ := x
  have hasked : Sound d ks L ⟨s.session, { s.world with heap := h', source := w }⟩ :=
    hS.quiet hs rfl rfl rfl rfl rfl
  cases rows with
  | error f =>
    cases h
    exact hasked
  | ok rows =>
    obtain ⟨⟨r, u⟩, hrun, hreply⟩ := Option.map_eq_some_iff.1 h
    have hu := hS.assembly hnested (hS.confined _ _) hrun hasked
    cases r <;> cases hreply <;> exact hu

/-- A load ends with the invariant, and what happened accounts for its rows. -/
theorem fetch (hnested : Inside P Sound nested tell d) {q : Query} {key : Option Key} {k : Key}
    {handled : Bool} {reply : Reply} (hq : P _ (.query q key handled))
    (hfetches : s.fetches k handled = true)
    (h : s.fetch env nested q k handled = some (reply, t)) (hs : Sound d ks L s) :
    Sound d ks (s.fetchStory env nested tell q k handled ++ L) t ∧
      reply.Accounted Backs (s.fetchStory env nested tell q k handled ++ L) k handled := by
  rw [State.fetch] at h
  obtain ⟨⟨⟨result, gone⟩, u⟩, hload, hreply⟩ := Option.map_eq_some_iff.1 h
  have hu := hS.load hnested hload (hS.mark hq hfetches hs)
  rw [State.fetchStory, hload]
  cases result with
  | error f =>
    cases hreply
    rw [List.append_assoc]
    exact ⟨hS.unmark hu, Reply.accounted_error rfl⟩
  | ok vs =>
    cases hreply
    rw [List.cons_append, List.append_assoc]
    cases handled with
    | true => exact ⟨hS.keepOutputs q k (hS.handed _ hq hu), fun _ _ => hS.backs_loads _ _ _,
        fun _ _ hnot => (by cases hnot)⟩
    | false =>
      have hrows : Reply.rows ⟨.ok vs, gone⟩ = vs := State.rows_of_load hload rfl
      rw [hrows]
      refine ⟨hS.keepOutputs q k (hS.kept vs hq hu), fun _ _ => ?_, fun ws hws _ => ?_⟩
      · rw [hrows]
        exact hS.backs_loads _ _ _
      · rw [hrows]
        exact Except.ok.inj hws

theorem lookup (hnested : Inside P Sound nested tell d) {q : Query} {key : Option Key} {k : Key}
    {handled : Bool} {reply : Reply} (hq : P _ (.query q key handled))
    (h : s.lookup env nested q k handled = some (reply, t)) (hs : Sound d ks L s) :
    Sound d ks (s.lookupStory env nested tell q k handled ++ L) t ∧
      reply.Accounted Backs (s.lookupStory env nested tell q k handled ++ L) k handled := by
  have hfetch : s.fetches k handled = true → s.fetch env nested q k handled = some (reply, t) →
      Sound d ks (s.lookupStory env nested tell q k handled ++ L) t ∧
        reply.Accounted Backs (s.lookupStory env nested tell q k handled ++ L) k handled := by
    intro hfetches h
    rw [State.lookupStory, if_pos hfetches]
    exact hS.fetch hnested hq hfetches h hs
  cases handled with
  | true => exact hfetch rfl h
  | false =>
    rw [State.lookup, if_neg Bool.false_ne_true] at h
    cases hheld : s.session.loaded.get? k with
    | none =>
      rw [hheld] at h
      exact hfetch (by rw [State.fetches, hheld]; rfl) h
    | some e =>
      rw [hheld] at h
      cases e with
      | encoded bs => exact hfetch (by rw [State.fetches, hheld]; rfl) h
      | loading =>
        cases h
        rw [State.lookupStory, State.fetches, hheld]
        exact ⟨hs, Reply.accounted_error rfl⟩
      | _ =>
        cases h
        rw [State.lookupStory, State.fetches, hheld]
        exact ⟨hS.restoreOutputs q k hs, fun _ _ => hS.held hs hheld rfl,
          fun _ hvs _ => Except.ok.inj hvs⟩

theorem opened {q : Query} (hopens : d = 0 → Opens q.statement) (hs : Sound d ks L s) :
    Sound d ks L (s.opened q) := by
  rw [State.opened]
  split
  · rename_i hfirst
    rw [Bool.and_eq_true, decide_eq_true_eq] at hfirst
    obtain rfl : d = 0 := (hS.depth hs).symm.trans hfirst.1
    exact hS.anew (hopens rfl) hfirst.2 hs
  · exact hs

/-- A query that the session itself is asked for keeps the invariant, its answer included. -/
theorem answerLocal (hnested : Inside P Sound nested tell (d + 1)) {q : Query} {key : Option Key}
    {k : Key} {handled : Bool} {reply : Reply} (hq : P _ (.query q key handled))
    (hopens : d = 0 → Opens q.statement)
    (h : s.answerLocal env nested q k handled = some (reply, t)) (hs : Sound d ks L s) :
    Sound d ks (s.localStory env nested tell q k handled ++ L) t ∧
      ∃ l, s.localStory env nested tell q k handled = .answers k none reply.rows t.heap :: l ∧
        reply.Accounted Backs (l ++ L) k handled := by
  rw [State.localStory, h]
  rw [State.answerLocal_eq] at h
  obtain ⟨⟨a, u⟩, hinside, hending⟩ := Option.map_eq_some_iff.1 h
  obtain ⟨⟨b, v⟩, hlookup, hb⟩ := Option.map_eq_some_iff.1 hinside
  cases hb
  obtain ⟨hv, ha⟩ := hS.lookup hnested hq hlookup (hS.enter (hS.opened hopens hs))
  have hu := hS.leave hv
  have hended : Sound d ks ((s.opened q).enter.lookupStory env nested tell q k handled ++ L) t ∧
      reply.Accounted Backs ((s.opened q).enter.lookupStory env nested tell q k handled ++ L) k
        handled := by
    rw [State.ending] at hending
    split at hending
    · cases hending
      exact ⟨hu, ha⟩
    · rename_i hdepth
      have hzero : d = 0 := (hS.depth hu).symm.trans (Nat.eq_zero_of_not_pos hdepth)
      subst hzero
      have hfinish := hS.finish b hu
      have haccounted := ha.finish v.leave
      rw [hending] at hfinish haccounted
      exact ⟨hfinish, haccounted⟩
  obtain ⟨ht, hreply⟩ := hended
  have hrows : reply.rows = [] ∨
      Backs ((s.opened q).enter.lookupStory env nested tell q k handled ++ L) k reply.rows := by
    cases hresult : reply.result with
    | error f => exact .inl (by rw [Reply.rows, hresult])
    | ok vs => exact .inr (hreply.backs vs hresult)
  exact ⟨hS.answered t.heap ht hrows, _, rfl, hreply⟩

theorem answerShared (hnested : Inside P Sound nested tell (d + 1)) {r : CacheRef} {q : Query}
    {key : Option Key} {k : Key} {reply : Reply} (hq : P _ (.query q key false))
    (hopens : d = 0 → Opens q.statement)
    (h : s.answerShared env nested r q k = some (reply, t)) (hs : Sound d ks L s) :
    Sound d ks (s.sharedStory env nested tell r q k ++ L) t := by
  rw [State.answerShared] at h
  rw [State.sharedStory]
  split at h
  · rename_i hsets
    cases h
    rw [if_pos hsets]
    exact hS.answered _ hs (.inl rfl)
  · rename_i hsets
    rw [if_neg hsets]
    have hread := hS.read r k hs
    have hserved := @hS.served d ks L s r k
    cases hx : s.readShared r k with
    | mk res u =>
      rw [hx] at h hread hserved
      cases res with
      | error f =>
        cases h
        exact hS.answered _ hread (.inl rfl)
      | ok e =>
        dsimp only at h ⊢
        cases hvs : e.bind Entry.results? with
        | some vs =>
          rw [hvs] at h
          cases h
          obtain ⟨e', rfl, he'⟩ := Option.bind_eq_some_iff.1 hvs
          exact hserved hs rfl he'
        | none =>
          rw [hvs] at h
          obtain ⟨⟨a, v⟩, hlocal, hreply⟩ := Option.map_eq_some_iff.1 h
          obtain ⟨hv, l, hstory, ha⟩ := hS.answerLocal hnested hq hopens hlocal hread
          dsimp only at hreply ⊢
          rw [hstory] at hv ⊢
          split at hreply
          · rename_i vs hresult
            cases hreply
            have hbacks := ha.backs vs hresult
            rw [ha.rows vs hresult rfl] at hv hbacks ⊢
            exact hS.put r hv hbacks
          · cases hreply
            exact hS.release r k hv

theorem answerOnce (hnested : Inside P Sound nested tell (d + 1)) {q : Query} {key : Option Key}
    {k : Key} {handled : Bool} {reply : Reply} (hq : P _ (.query q key handled))
    (hopens : d = 0 → Opens q.statement)
    (h : s.answerOnce env nested q k handled = some (reply, t)) (hs : Sound d ks L s) :
    Sound d ks (s.onceStory env nested tell q k handled ++ L) t := by
  rw [State.answerOnce] at h
  rw [State.onceStory]
  cases hopen : s.session.ensureOpen with
  | error f =>
    rw [hopen] at h
    cases h
    exact hS.answered _ hs (.inl rfl)
  | ok u =>
    rw [hopen] at h
    dsimp only at h ⊢
    cases hcache : s.session.sharedCache q.statement with
    | none =>
      rw [hcache] at h
      exact (hS.answerLocal hnested hq hopens h hs).1
    | some r =>
      rw [hcache] at h
      have hflush := hS.flush q.statement hs
      dsimp only at h ⊢
      split at h
      · rename_i huses
        rw [if_pos huses]
        exact (hS.answerLocal hnested hq hopens h hflush).1
      · rename_i huses
        rw [if_neg huses]
        have hhandled : handled = false := by
          cases handled with
          | false => rfl
          | true => simp at huses
        subst hhandled
        exact hS.answerShared hnested hq hopens h hflush

/-- Every query keeps the invariant. -/
theorem answer {limit : Nat} {q : Query} {key : Option Key} {k : Key} {handled : Bool}
    {reply : Reply} (hq : P _ (.query q key handled)) (hopens : d = 0 → Opens q.statement)
    (h : env.answer limit q k handled s = some (reply, t)) (hs : Sound d ks L s) :
    Sound d ks (env.story limit q k handled s ++ L) t := by
  -- on how deep queries may nest: the hypothesis is about the queries inside this one
  induction limit generalizing q key k handled d ks L s reply t with
  | zero => cases h
  | succ limit ih =>
    refine hS.answerOnce (fun hq h hs => ih hq (fun hzero => ?_) h hs) hq hopens h hs
    exact absurd hzero (Nat.succ_ne_zero _)

/-- Whether a call from outside is a query of a statement that is allowed there. -/
def Opening (Opens : Statement → Prop) {β : Type} (c : Call β) : Prop :=
  match c with
  | .query q _ _ => Opens q.statement
  | _ => True

/-- Every call from outside keeps the invariant. No key is being loaded then. -/
theorem perform {limit : Nat} {β : Type} {c : Call β} (hc : P β c) (hopens : Opening Opens c)
    {b : β} (h : env.perform limit c s = some (b, t)) (hs : Sound 0 [] L s) :
    Sound 0 [] (env.tells limit c s ++ L) t := by
  cases hquery : c.isQuery with
  | false => exact hS.call_quick hc hquery h hs
  | true =>
    cases c with
    | query q key handled =>
      rw [Env.tells]
      obtain ⟨k, hk, hstory⟩ | ⟨rfl, hstory⟩ := query_cases (env.story limit) h
      · rw [hstory]
        exact hS.answer hc (fun _ => hopens) hk hs
      · rw [hstory]
        exact hs
    | _ => cases hquery

end Follows

theorem State.localStory_answers {env : Env τ} {nested : Answering τ} (tell : Telling τ) {q : Query}
    {k : Key} {handled : Bool} {s t : State τ} {reply : Reply}
    (h : s.answerLocal env nested q k handled = some (reply, t)) :
    ∃ l, s.localStory env nested tell q k handled = .answers k none reply.rows t.heap :: l := by
  rw [localStory, h]
  exact ⟨_, rfl⟩

theorem State.sharedStory_answers {env : Env τ} {nested : Answering τ} (tell : Telling τ)
    {r : CacheRef} {q : Query} {k : Key} {s t : State τ} {reply : Reply}
    (h : s.answerShared env nested r q k = some (reply, t)) :
    ∃ c l, s.sharedStory env nested tell r q k = .answers k c reply.rows t.heap :: l := by
  rw [answerShared] at h
  rw [sharedStory]
  split at h
  · rename_i hsets
    cases h
    rw [if_pos hsets]
    exact ⟨none, [], rfl⟩
  · rename_i hsets
    rw [if_neg hsets]
    generalize s.readShared r k = x at h ⊢
    obtain ⟨f | e, u⟩ := x
    · cases h
      exact ⟨none, [], rfl⟩
    · dsimp only at h ⊢
      cases hvs : e.bind Entry.results? with
      | some vs =>
        rw [hvs] at h
        cases h
        exact ⟨_, [], rfl⟩
      | none =>
        rw [hvs] at h
        obtain ⟨⟨a, v⟩, ha, hreply⟩ := Option.map_eq_some_iff.1 h
        obtain ⟨l, hl⟩ := localStory_answers tell ha
        dsimp only at hreply
        split at hreply <;> cases hreply <;> exact ⟨none, l, hl⟩

/-- The latest thing that happened in a query is that it was answered, with the rows that it
gives. -/
theorem Env.story_answers {env : Env τ} {limit : Nat} {q : Query} {k : Key} {handled : Bool}
    {s t : State τ} {reply : Reply} (h : env.answer limit q k handled s = some (reply, t)) :
    ∃ c l, env.story limit q k handled s = .answers k c reply.rows t.heap :: l := by
  cases limit with
  | zero => cases h
  | succ limit =>
    rw [Env.answer, State.answerOnce] at h
    rw [Env.story, State.onceStory]
    cases hopen : s.session.ensureOpen with
    | error f =>
      rw [hopen] at h
      cases h
      exact ⟨none, [], rfl⟩
    | ok u =>
      rw [hopen] at h
      cases hcache : s.session.sharedCache q.statement with
      | none =>
        rw [hcache] at h
        exact ⟨none, State.localStory_answers _ h⟩
      | some r =>
        rw [hcache] at h
        dsimp only at h ⊢
        split at h
        · rename_i huses
          rw [if_pos huses]
          exact ⟨none, State.localStory_answers _ h⟩
        · rename_i huses
          rw [if_neg huses]
          exact State.sharedStory_answers _ h

/-- A query from outside that succeeds ends with rows that it was answered with. -/
theorem Env.tells_answers {env : Env τ} {limit : Nat} {q : Query} {key : Option Key}
    {handled : Bool} {s t : State τ} {reply : Reply} {vs : List Value}
    (h : env.perform limit (.query q key handled) s = some (reply, t))
    (hvs : reply.result = .ok vs) :
    ∃ k c l, env.tells limit (.query q key handled) s = .answers k c reply.rows t.heap :: l := by
  cases key with
  | some k => exact ⟨k, env.story_answers h⟩
  | none =>
    rw [perform, Call.run] at h
    rw [tells, Call.story]
    cases hkey : s.key env.hash q with
    | ok k =>
      rw [hkey] at h
      exact ⟨k, env.story_answers h⟩
    | error f =>
      rw [hkey] at h
      cases h
      cases hvs

end ResultCache
