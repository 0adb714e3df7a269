import ResultCache.Proofs.Session.Nesting

/-!
# How a query ends

A query ends in one of two ways (`State.Ended`). It is answered before the session looks at its own
results: the session is closed, or the shared cache of the statement has the rows, or a fault.
Otherwise the session looks for the query among its own results, or loads it (`State.inside`), and
what an outermost query still has to do is done then (`State.ending`).

So a query only succeeds with rows that a shared cache had, that the session held as completed
results, or that were made of what the data source returned (`State.Origin`). A mark gives no rows;
and no mark is left behind by a query (`no_mark_outlives_its_query`).
-/
namespace ResultCache

variable {τ : Type}

/-- What belongs to a session alone, its buffers apart. -/
def Session.own (s : Session) : Session := { s with buffers := .empty }

theorem Session.eq_of_own_eq {s t : Session} (h : s.own = t.own) :
    s = { t with buffers := s.buffers } := by
  obtain ⟨⟩ := s
  obtain ⟨⟩ := t
  simp only [own, Session.mk.injEq] at h
  simp [h]

namespace State

/-- The state in which the session itself is asked for the results of a query. A shared cache is read
before that, and flushed before it is read. -/
def reaching (q : Query) (k : Key) (handled : Bool) (s : State τ) : State τ :=
  match s.session.sharedCache q.statement with
  | none => s
  | some r =>
    if !q.statement.usesCache || handled then s.flush q.statement
    else ((s.flush q.statement).readShared r k).2

/-- The answer to a query that is answered before the session itself is asked. -/
def early (q : Query) (k : Key) (handled : Bool) (s : State τ) : Option (Result (List Value)) :=
  match s.session.ensureOpen with
  | .error f => some (.error f)
  | .ok () =>
    match s.session.sharedCache q.statement with
    | none => none
    | some r =>
      if !q.statement.usesCache || handled then none
      else if q.statement.isCallable && Statement.setsParameters q.binding then
        some (.error (.unsupported (.outParameters q.statement.id)))
      else
        match ((s.flush q.statement).readShared r k).1 with
        | .error f => some (.error f)
        | .ok e => (e.bind Entry.results?).map .ok

/-- The ways for a query in the state `s` to end. -/
inductive Ended (env : Env τ) (nested : Answering τ) (q : Query) (k : Key) (handled : Bool)
    (s : State τ) : Reply → State τ → Prop
  | early {r : Result (List Value)} {t : State τ} (hearly : s.early q k handled = some r)
    (hown : t.session.own = s.session.own) : Ended env nested q k handled s (.ofResult r) t
  | late {reply : Reply} {t u : State τ} (hearly : s.early q k handled = none)
    (hinside : (s.reaching q k handled).inside env nested q k handled = some (reply, u))
    (hown : t.session.own = (u.ending reply).2.session.own)
    (hheap : t.heap = (u.ending reply).2.heap) :
    Ended env nested q k handled s (u.ending reply).1 t

variable {env : Env τ} {nested : Answering τ} {q : Query} {k : Key} {handled : Bool}
  {s t : State τ} {reply : Reply}

@[simp] theorem own_flush (st : Statement) (s : State τ) :
    (s.flush st).session.own = s.session.own := by
  obtain ⟨bs, hflush⟩ := s.flush_buffers st
  rw [hflush, Session.own, Session.own]

@[simp] theorem own_reaching (q : Query) (k : Key) (handled : Bool) (s : State τ) :
    (s.reaching q k handled).session.own = s.session.own := by
  have hread : ∀ r (u : State τ), (u.readShared r k).2.session.own = u.session.own := fun _ _ => rfl
  rw [reaching]
  split
  · rfl
  · split
    · exact own_flush q.statement s
    · exact (hread _ _).trans (own_flush q.statement s)

/-- A query that the session itself is asked for runs inside it, and its ending follows. What is done
to the buffers after that changes nothing else. -/
theorem ended_of_answerLocal {a : Reply} {v : State τ} (hearly : s.early q k handled = none)
    (h : (s.reaching q k handled).answerLocal env nested q k handled = some (a, v))
    (hown : t.session.own = v.session.own) (hheap : t.heap = v.heap) :
    s.Ended env nested q k handled a t := by
  rw [answerLocal_eq] at h
  obtain ⟨⟨b, u⟩, hinside, hending⟩ := Option.map_eq_some_iff.1 h
  have hreply : (u.ending b).1 = a := congrArg Prod.fst hending
  have hstate : (u.ending b).2 = v := congrArg Prod.snd hending
  rw [← hstate] at hown hheap
  rw [← hreply]
  exact .late hearly hinside hown hheap

theorem ended_of_answerShared {r : CacheRef} (hopen : s.session.ensureOpen = .ok ())
    (hcache : s.session.sharedCache q.statement = some r)
    (huses : ¬ (!q.statement.usesCache || handled) = true)
    (h : (s.flush q.statement).answerShared env nested r q k = some (reply, t)) :
    s.Ended env nested q k handled reply t := by
  have hhandled : handled = false := by
    cases handled with
    | false => rfl
    | true => simp at huses
  have hreaching : s.reaching q k handled = ((s.flush q.statement).readShared r k).2 := by
    rw [reaching, hcache]
    exact if_neg huses
  have hown := own_reaching q k handled s
  have hearly : s.early q k handled =
      if q.statement.isCallable && Statement.setsParameters q.binding then
        some (.error (.unsupported (.outParameters q.statement.id)))
      else
        match ((s.flush q.statement).readShared r k).1 with
        | .error f => some (.error f)
        | .ok e => (e.bind Entry.results?).map .ok := by
    rw [early, hopen, hcache]
    exact if_neg huses
  rw [answerShared] at h
  split at h
  · rename_i hsets
    cases h
    exact .early (hearly.trans (if_pos hsets)) (own_flush q.statement s)
  · rename_i hsets
    rw [if_neg hsets] at hearly
    generalize (s.flush q.statement).readShared r k = x at h hearly hreaching
    obtain ⟨f | e, u⟩ := x
    · cases h
      rw [hreaching] at hown
      exact .early hearly hown
    · dsimp only at h hearly hreaching
      cases hresults : e.bind Entry.results? with
      | some vs =>
        rw [hresults] at h hearly
        cases h
        rw [hreaching] at hown
        exact .early hearly hown
      | none =>
        rw [hresults] at h hearly
        obtain ⟨⟨a, v⟩, hlocal, hreply⟩ := Option.map_eq_some_iff.1 h
        rw [← hreaching, ← hhandled] at hlocal
        dsimp only at hreply
        split at hreply
        · cases hreply
          exact ended_of_answerLocal hearly hlocal rfl rfl
        · cases hreply
          exact ended_of_answerLocal hearly hlocal rfl rfl

/-- A query is answered early, or it runs inside the session and its ending follows. -/
theorem ended_of_answerOnce (h : s.answerOnce env nested q k handled = some (reply, t)) :
    s.Ended env nested q k handled reply t := by
  rw [answerOnce] at h
  cases hopen : s.session.ensureOpen with
  | error f =>
    rw [hopen] at h
    cases h
    exact .early (by rw [early, hopen]) rfl
  | ok u =>
    rw [hopen] at h
    dsimp only at h
    cases hcache : s.session.sharedCache q.statement with
    | none =>
      have hreaching : s.reaching q k handled = s := by rw [reaching, hcache]
      rw [hcache, ← hreaching] at h
      exact ended_of_answerLocal (by rw [early, hopen, hcache]) h rfl rfl
    | some r =>
      rw [hcache] at h
      dsimp only at h
      split at h
      · rename_i huses
        have hearly : s.early q k handled = none := by
          rw [early, hopen, hcache]
          exact if_pos huses
        have hreaching : s.reaching q k handled = s.flush q.statement := by
          rw [reaching, hcache]
          exact if_pos huses
        rw [← hreaching] at h
        exact ended_of_answerLocal hearly h rfl rfl
      · rename_i huses
        exact ended_of_answerShared hopen hcache huses h

/-- What looking for a query among the results of the session comes to. -/
inductive Looked (env : Env τ) (nested : Answering τ) (q : Query) (k : Key) (handled : Bool)
    (s : State τ) : Reply → State τ → Prop
  | reentered (hhandled : handled = false) (hheld : s.session.loaded.get? k = some .loading) :
    Looked env nested q k handled s
      (.ofResult (.error (.execution (.reentered q.statement.id k.text)))) s
  | held {e : Entry} {vs : List Value} (hhandled : handled = false)
    (hheld : s.session.loaded.get? k = some e) (hvs : e.results? = some vs) :
    Looked env nested q k handled s (.ofResult (.ok vs)) (s.restoreOutputs q k)
  | loaded {reply : Reply} {t : State τ}
    (hfree : handled = false → s.session.loaded.get? k ≠ some .loading)
    (hmissing : handled = false → (s.session.loaded.get? k).bind Entry.results? = none)
    (hfetch : s.fetch env nested q k handled = some (reply, t)) :
    Looked env nested q k handled s reply t

theorem looked_of_lookup (h : s.lookup env nested q k handled = some (reply, t)) :
    s.Looked env nested q k handled reply t := by
  rw [lookup] at h
  split at h
  · rename_i hhandled
    have hnever : handled ≠ false := by simp [hhandled]
    exact .loaded (fun hnot => absurd hnot hnever) (fun hnot => absurd hnot hnever) h
  · rename_i hnot
    have hhandled : handled = false := by simpa using hnot
    split at h
    · rename_i hheld
      cases h
      exact .reentered hhandled hheld
    · rename_i e hmark hheld
      split at h
      · rename_i vs hvs
        cases h
        exact .held hhandled hheld hvs
      · rename_i hnone
        refine .loaded (fun _ hloading => hmark ?_) (fun _ => ?_) h
        · rw [hheld] at hloading
          exact Option.some.inj hloading
        · rw [hheld]
          exact hnone
    · rename_i hheld
      exact .loaded (fun _ hloading => by simp [hheld] at hloading) (fun _ => by rw [hheld]; rfl) h

/-- A query that is loaded and fails leaves nothing for its key. -/
theorem fetch_error {f : Fault} (h : s.fetch env nested q k handled = some (reply, t))
    (hf : reply.result = .error f) :
    ∃ u, (s.mark k).load env nested q handled = some (reply, u) ∧ t = u.unmark k := by
  rw [fetch] at h
  obtain ⟨⟨a, u⟩, hload, hreply⟩ := Option.map_eq_some_iff.1 h
  dsimp only at hreply
  split at hreply
  · cases hreply
    exact ⟨u, hload, rfl⟩
  · rename_i vs hvs
    cases hreply
    rw [hvs] at hf
    cases hf

/-- A query that is loaded and succeeds leaves its rows, unless they were handed over. -/
theorem fetch_ok {vs : List Value} (h : s.fetch env nested q k handled = some (reply, t))
    (hvs : reply.result = .ok vs) :
    ∃ u, (s.mark k).load env nested q handled = some (reply, u) ∧
      t = (if handled then u.unmark k else (u.unmark k).keepRows k vs).keepOutputs q k := by
  rw [fetch] at h
  obtain ⟨⟨a, u⟩, hload, hreply⟩ := Option.map_eq_some_iff.1 h
  dsimp only at hreply
  split at hreply
  · rename_i f hf
    cases hreply
    rw [hf] at hvs
    cases hvs
  · rename_i ws hws
    cases hreply
    rw [hws] at hvs
    cases hvs
    exact ⟨u, hload, rfl⟩

/-- Only a query that the data source returned rows for is loaded. -/
theorem load_ok {vs : List Value} (h : s.load env nested q handled = some (reply, t))
    (hvs : reply.result = .ok vs) :
    ∃ rows h' x, env.source.query q.statement q.binding q.param q.window s.heap s.world.source =
      (.ok rows, h', x) := by
  rw [load] at h
  generalize env.source.query q.statement q.binding q.param q.window s.heap s.world.source = x
    at h ⊢
  obtain ⟨f | rows, h', w⟩ := x
  · cases h
    cases hvs
  · exact ⟨rows, h', w, rfl⟩

theorem finish_error {f : Fault} (hf : reply.result = .error f) (s : State τ) :
    s.finish reply = (reply, { s with session := { s.session with deferred := [] } }) := by
  rw [finish, hf]

theorem finish_ok {vs : List Value} (hvs : reply.result = .ok vs) (s : State τ) :
    s.finish reply = (⟨s.drain.1.map fun _ => vs, reply.handled⟩,
      if s.session.config.scope = .statement then s.drain.2.clearLoaded else s.drain.2) := by
  rw [finish, hvs]
  rfl

/-- An outermost query succeeds if it did up to its ending and everything that waited could be set.
Its ending adds no rows. -/
theorem result_finish {vs : List Value} (h : (s.finish reply).1.result = .ok vs) :
    reply.result = .ok vs ∧ s.drain.1 = .ok () := by
  cases hreply : reply.result with
  | error f =>
    rw [finish_error hreply, hreply] at h
    cases h
  | ok ws =>
    rw [finish_ok hreply] at h
    cases hdrain : s.drain.1 with
    | error f =>
      rw [hdrain] at h
      cases h
    | ok _ =>
      rw [hdrain] at h
      cases h
      exact ⟨rfl, rfl⟩

/-- It fails as it did up to its ending, or with a property that waited. -/
theorem fault_finish {f : Fault} (h : (s.finish reply).1.result = .error f) :
    reply.result = .error f ∨ ∃ vs, reply.result = .ok vs ∧ s.drain.1 = .error f := by
  cases hreply : reply.result with
  | error g =>
    rw [finish_error hreply, hreply] at h
    exact .inl h
  | ok vs =>
    rw [finish_ok hreply] at h
    cases hdrain : s.drain.1 with
    | error g =>
      rw [hdrain] at h
      cases h
      exact .inr ⟨vs, rfl, rfl⟩
    | ok _ =>
      rw [hdrain] at h
      cases h

theorem result_ending {vs : List Value} (h : (s.ending reply).1.result = .ok vs) :
    reply.result = .ok vs := by
  rw [ending] at h
  split at h
  · exact h
  · exact (result_finish h).1

theorem own_opened (h : s.session.own = t.session.own) :
    (s.opened q).session.own = (t.opened q).session.own := by
  have hsession := Session.eq_of_own_eq h
  generalize s.session.buffers = bs at hsession
  simp only [opened, clearLoaded, Session.clearLoaded, hsession]
  split
  · split <;> rfl
  · exact h

/-- Where a query that nothing is known of asks the data source, under its mark. -/
def asking (q : Query) (k : Key) (handled : Bool) (s : State τ) : State τ :=
  ((s.reaching q k handled).opened q).enter.mark k

/-- The data source returned rows for the query, and they became its results. -/
def Loads (env : Env τ) (q : Query) (k : Key) (handled : Bool) (s : State τ) (vs : List Value) :
    Prop :=
  s.early q k handled = none ∧
    (∃ rows h x, env.source.query q.statement q.binding q.param q.window
      (s.asking q k handled).heap (s.asking q k handled).world.source = (.ok rows, h, x)) ∧
    ∃ limit reply t, (s.asking q k handled).load env (env.answer limit) q handled =
      some (reply, t) ∧ reply.result = .ok vs

/-- Where the rows of a query that succeeds come from. -/
inductive Origin (env : Env τ) (q : Query) (k : Key) (handled : Bool) (s : State τ)
    (vs : List Value) : Prop
  /-- a shared cache had them -/
  | shared (hearly : s.early q k handled = some (.ok vs))
  /-- the session held them as completed results -/
  | held {e : Entry} (hhandled : handled = false)
    (hheld : (s.opened q).session.loaded.get? k = some e) (hvs : e.results? = some vs)
  /-- they were loaded, and not under a mark that was there, unless they were handed over -/
  | source (hfree : handled = false → (s.opened q).session.loaded.get? k ≠ some .loading)
    (hloads : s.Loads env q k handled vs)

theorem origin_of_answer {limit : Nat} {vs : List Value}
    (h : env.answer limit q k handled s = some (reply, t)) (hvs : reply.result = .ok vs) :
    s.Origin env q k handled vs := by
  cases limit with
  | zero => cases h
  | succ limit =>
    have hloaded : ((s.reaching q k handled).opened q).session.loaded =
        (s.opened q).session.loaded := by
      rw [Session.eq_of_own_eq (own_opened (own_reaching q k handled s))]
    cases ended_of_answerOnce h with
    | early hearly _ =>
      cases hvs
      exact .shared hearly
    | @late a _ u hearly hinside _ _ =>
      have ha : a.result = .ok vs := result_ending hvs
      obtain ⟨⟨b, v⟩, hlookup, hb⟩ := Option.map_eq_some_iff.1 hinside
      cases hb
      have hlooked := looked_of_lookup hlookup
      cases hlooked with
      | reentered _ _ => cases ha
      | held hhandled hheld hws =>
        cases ha
        refine .held hhandled ?_ hws
        rw [← hloaded]
        exact hheld
      | loaded hfree _ hfetch =>
        obtain ⟨w, hload, -⟩ := fetch_ok hfetch ha
        refine .source ?_ ⟨hearly, load_ok hload ha, limit, _, w, hload, ha⟩
        rw [← hloaded]
        exact hfree

end State

/-- A relation that is tracked holds up to where the session itself is asked. -/
theorem Tracks.reaching {env : Env τ} {P : ∀ β : Type, Call β → Prop}
    {R : State τ → State τ → Prop} (hR : Tracks env P R) (q : Query) (k : Key) (handled : Bool)
    (s : State τ) : R s (s.reaching q k handled) := by
  rw [State.reaching]
  split
  · exact hR.refl s
  · split
    · exact hR.flush q.statement s
    · exact hR.trans (hR.flush q.statement s) (hR.read _ k _)

/-- However a query ends, whatever assemblies ask for and wherever the data source fails, it leaves
no mark that was not there before, and it succeeds only with rows of a shared cache, with completed
results that the session held, or with what the data source returned. So between calls from outside
no query is running and no key is marked. -/
theorem no_mark_outlives_its_query (env : Env τ) :
    (∀ s : Session, s.Reached env → s.depth = 0 ∧ ∀ k, s.loaded.get? k ≠ some .loading) ∧
    ∀ limit q k handled (s t : State τ) reply, env.answer limit q k handled s = some (reply, t) →
      t.session.depth = s.session.depth ∧
      (∀ j, t.session.loaded.get? j = some .loading → s.session.loaded.get? j = some .loading) ∧
      ∀ vs, reply.result = .ok vs → s.Origin env q k handled vs := by
  constructor
  · intro s hs
    exact ⟨hs.idle.depth, hs.idle.loaded⟩
  · intro limit q k handled s t reply h
    have hrestores := restores_answer h
    exact ⟨hrestores.depth, fun j => hrestores.loading, fun vs => State.origin_of_answer h⟩

/-- While a query runs, its own key is asked for again and everything the session holds is dropped,
whatever comes of it. -/
def restless : Env Unit where
  hash := flatHash
  source := .oneRow
  materializer _ rows :=
    .call (.query (.ofStatement selfQuery (.int 1) .unbounded) none false) fun _ =>
      .call .clearLoaded fun _ => Assembly.objects rows

/-- The query gives its row, which comes from the data source. -/
theorem no_mark_outlives_its_query_restless :
    ∃ reply t, restless.perform 2 (.query (.ofStatement selfQuery (.int 1) .unbounded) none false)
        newState = some (reply, t) ∧
      (t.session.depth = 0 ∧ ∀ k, t.session.loaded.get? k ≠ some .loading) ∧
      reply.result = .ok [.object ⟨0⟩] ∧
      newState.Origin restless (.ofStatement selfQuery (.int 1) .unbounded) selfKey false
        [.object ⟨0⟩] := by
  have hrun : (restless.perform 2 (.query (.ofStatement selfQuery (.int 1) .unbounded) none false)
      newState).map (fun p => p.1.result) = some (.ok [.object ⟨0⟩]) := by decide +kernel
  obtain ⟨⟨reply, t⟩, hanswer, hresult⟩ := Option.map_eq_some_iff.1 hrun
  obtain ⟨hidle, hqueries⟩ := no_mark_outlives_its_query restless
  have hreached : t.session.Reached restless := .call (.new .standard .insertion) hanswer
  have hquery : restless.perform 2 (.query (.ofStatement selfQuery (.int 1) .unbounded) none false)
      newState = restless.answer 2 _ selfKey false newState := perform_query rfl
  obtain ⟨-, -, horigin⟩ := hqueries 2 _ selfKey false newState t reply (hquery ▸ hanswer)
  exact ⟨reply, t, hanswer, hidle _ hreached, hresult, horigin _ hresult⟩

end ResultCache
