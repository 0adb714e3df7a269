import ResultCache.Proofs.Session.Canonical
import ResultCache.Proofs.Session.Ending

/-!
# What an outermost query leaves behind

When no query is running, a query that is not answered early runs inside the session and ends with
setting the properties that wait (`outermost_cases`). If it failed inside, the session holds nothing
for its key (`inside_error`); if it succeeded, its rows are kept (`inside_ok`), and in a session that
keeps results for one query only everything is dropped at its end (`bare_finish`).

Nested selects only ask for queries and defer properties, so the session they run in stays open
(`closed_tracks`). A session is emptied by calls from outside alone (`Call.empties`), and it is empty
once it is closed (`Session.Reached.bare`).
-/
namespace ResultCache

variable {τ : Type}

/-- What nested selects ask a session for. -/
def Call.OfNested (β : Type) (c : Call β) : Prop :=
  match c with
  | .query .. | .key .. | .isLoaded .. | .defer .. => True
  | _ => False

namespace Assembly

variable {P : ∀ β : Type, Call β → Prop} {α β : Type}

theorem Confined.bind {a : Assembly τ α} {f : α → Assembly τ β} (ha : a.Confined P)
    (hf : ∀ x, (f x).Confined P) : (a.bind f).Confined P := by
  induction a with
  | done r =>
    cases r with
    | ok x => exact hf x
    | error e => trivial
  | heap next ih => exact fun h => ih h (ha h)
  | alloc r next ih => exact fun o => ih o (ha o)
  | write o name v next ih => exact ih ha
  | note g next ih => exact ih ha
  | call c next ih => exact ⟨ha.1, fun b => ih b (ha.2 b)⟩

theorem confined_ask {c : Call α} (hc : P α c) : (ask c : Assembly τ α).Confined P :=
  ⟨hc, fun _ => trivial⟩

theorem confined_need {c : Call (Result α)} (hc : P _ c) :
    (need c : Assembly τ α).Confined P :=
  ⟨hc, fun _ => trivial⟩

end Assembly

/-- What nested selects ask for is allowed: they never ask for rows one by one. -/
structure NestedSelect.Allowed (P : ∀ β : Type, Call β → Prop) : Prop where
  query : ∀ q k, P _ (.query q (some k) false)
  key : ∀ q, P _ (.key q)
  isLoaded : ∀ k, P _ (.isLoaded k)
  defer : ∀ d, P _ (.defer d)

theorem NestedSelect.allowed_ofNested : Allowed Call.OfNested :=
  ⟨fun _ _ => trivial, fun _ => trivial, fun _ => trivial, fun _ => trivial⟩

namespace NestedSelect

variable {P : ∀ β : Type, Call β → Prop} (hP : Allowed P)

include hP

theorem confined_fill (n : NestedSelect) (o : ObjId) :
    (n.fill o : Assembly τ Unit).Confined P := by
  intro h
  apply (Assembly.confined_need (hP.key _)).bind
  intro k
  apply (Assembly.confined_need (hP.isLoaded k)).bind
  intro loaded
  split
  · exact Assembly.confined_need (hP.defer _)
  · apply (Assembly.confined_ask (hP.query _ k)).bind
    intro reply
    apply Assembly.Confined.bind
    · trivial
    · exact fun _ => trivial

theorem confined_fillAll (o : ObjId) (ns : List NestedSelect) :
    (fillAll o ns : Assembly τ Unit).Confined P := by
  induction ns with
  | nil => trivial
  | cons n ns ih => exact (confined_fill hP n o).bind fun _ => ih

theorem confined_objects (ns : List NestedSelect) (rs : List Record) :
    (objects ns rs : Assembly τ (List Value)).Confined P := by
  induction rs with
  | nil => trivial
  | cons r rs ih =>
    exact fun o => (confined_fillAll hP o ns).bind fun _ => ih.bind fun _ => trivial

end NestedSelect

@[simp] theorem Session.closed_clearLoaded (s : Session) : s.clearLoaded.closed = s.closed := by
  rw [clearLoaded]
  split <;> rfl

namespace State

theorem closed_defer (d : Session.Deferred) (s : State τ) :
    (s.defer d).2.session.closed = s.session.closed := by
  obtain ⟨h, ds, hdefer⟩ := s.defer_deferred d
  rw [hdefer]

@[simp] theorem closed_flush (st : Statement) (s : State τ) :
    (s.flush st).session.closed = s.session.closed := by
  obtain ⟨bs, hflush⟩ := s.flush_buffers st
  rw [hflush]

theorem closed_finish (reply : Reply) (s : State τ) :
    (s.finish reply).2.session.closed = s.session.closed := by
  rw [finish]
  split
  · rfl
  · dsimp only
    split
    · exact Session.closed_clearLoaded _
    · rfl

theorem closed_keepOutputs (q : Query) (k : Key) (s : State τ) :
    (s.keepOutputs q k).session.closed = s.session.closed := by
  obtain ⟨outputs, hkeep⟩ := s.keepOutputs_outputs q k
  rw [hkeep]

theorem closed_restoreOutputs (q : Query) (k : Key) (s : State τ) :
    (s.restoreOutputs q k).session.closed = s.session.closed := by
  obtain ⟨h, hrestore⟩ := s.restoreOutputs_heap q k
  rw [hrestore, withHeap]

/-- Nested selects neither close the session nor open it. -/
theorem closed_tracks (H : ComponentHash) (D : DataSource τ) (ns : String → List NestedSelect) :
    Tracks (.nested H D ns) Call.OfNested fun s t => t.session.closed = s.session.closed where
  refl _ := rfl
  trans hst htu := htu.trans hst
  confined st rs := NestedSelect.confined_objects NestedSelect.allowed_ofNested (ns st.id) rs
  quick {_ c _ s _ _} hP hc h := by
    rw [Call.eq_after hc h]
    cases c with
    | query q key handled => cases hc
    | key q => rfl
    | isLoaded k => rfl
    | defer d => exact closed_defer d s
    | _ => exact hP.elim
  alloc _ _ := rfl
  write _ _ _ _ := rfl
  note _ _ := rfl
  source _ _ _ _ _ _ := rfl
  flush := closed_flush
  read _ _ _ := rfl
  put _ _ _ _ := rfl
  release _ _ _ := rfl
  anew s _ := s.session.closed_clearLoaded
  finish reply s _ := closed_finish reply s
  keepRows _ _ _ := rfl
  keepOutputs := closed_keepOutputs
  restoreOutputs := closed_restoreOutputs
  loading h := h
  within h := h

end State

/-- A query from outside with all queries inside it, up to its ending. -/
def Env.inside (env : Env τ) : Nat → Query → Key → Bool → Run τ Reply
  | 0, _, _, _ => fun _ => none
  | limit + 1, q, k, handled => fun s =>
    (s.reaching q k handled).inside env (env.answer limit) q k handled

section Outermost

variable {env : Env τ} {limit : Nat} {q : Query} {k : Key} {handled : Bool} {s t u : State τ}
  {reply a : Reply}

theorem Tracks.envInside {P : ∀ β : Type, Call β → Prop} {R : State τ → State τ → Prop}
    (hR : Tracks env P R) (h : env.inside limit q k handled s = some (reply, t)) : R s t := by
  cases limit with
  | zero => cases h
  | succ limit =>
    have hinside := Tracks.inside hR (fun _ _ _ _ _ _ h => hR.answer h) h
    exact hR.trans (hR.reaching q k handled s) hinside

/-- An outermost query is answered early, or it runs inside the session and what waits is set. -/
theorem outermost_cases (hs : s.session.Idle)
    (h : env.answer limit q k handled s = some (reply, t)) :
    (∃ r, s.early q k handled = some r ∧ reply = .ofResult r ∧ t.session.own = s.session.own) ∨
    (s.early q k handled = none ∧ ∃ a u, env.inside limit q k handled s = some (a, u) ∧
      reply = (u.finish a).1 ∧ t.session.own = (u.finish a).2.session.own ∧
      t.heap = (u.finish a).2.heap) := by
  cases limit with
  | zero => cases h
  | succ limit =>
    cases State.ended_of_answerOnce h with
    | early hearly hown => exact .inl ⟨_, hearly, rfl, hown⟩
    | @late a _ u hearly hinside hown hheap =>
      have hinside : env.inside (limit + 1) q k handled s = some (a, u) := hinside
      have hrestores : s.Restores u := (State.restores_tracks env).envInside hinside
      have hdepth : ¬ 0 < u.session.depth := by
        rw [hrestores.depth, hs.depth]
        decide
      rw [State.ending, if_neg hdepth] at hown hheap ⊢
      exact .inr ⟨hearly, a, u, hinside, rfl, hown, hheap⟩

namespace State

theorem loaded_keepOutputs (q : Query) (k : Key) (s : State τ) :
    (s.keepOutputs q k).session.loaded = s.session.loaded := by
  obtain ⟨outputs, hkeep⟩ := s.keepOutputs_outputs q k
  rw [hkeep]

theorem loaded_restoreOutputs (q : Query) (k : Key) (s : State τ) :
    (s.restoreOutputs q k).session.loaded = s.session.loaded := by
  obtain ⟨h, hrestore⟩ := s.restoreOutputs_heap q k
  rw [hrestore, withHeap]

theorem get?_clearLoaded {e : Entry} (h : s.clearLoaded.session.loaded.get? k = some e) :
    s.session.loaded.get? k = some e := by
  rw [clearLoaded, Session.clearLoaded] at h
  split at h
  · exact h
  · simp at h

theorem get?_opened {e : Entry} (h : (s.opened q).session.loaded.get? k = some e) :
    s.session.loaded.get? k = some e := by
  rw [opened] at h
  split at h
  · exact get?_clearLoaded h
  · exact h

theorem get?_finish {e : Entry} (h : (s.finish a).2.session.loaded.get? k = some e) :
    s.session.loaded.get? k = some e := by
  cases ha : a.result with
  | error f =>
    rw [finish_error ha] at h
    exact h
  | ok vs =>
    rw [finish_ok ha] at h
    dsimp only at h
    split at h
    · exact get?_clearLoaded (s := s.drain.2) h
    · exact h

end State

/-- A query that fails inside a session that is idle leaves nothing for its key. -/
theorem inside_error (hs : s.session.Idle) {f : Fault}
    (h : env.inside limit q k handled s = some (a, u)) (hf : a.result = .error f) :
    u.session.loaded.get? k = none := by
  cases limit with
  | zero => cases h
  | succ limit =>
    obtain ⟨⟨b, v⟩, hlookup, hb⟩ := Option.map_eq_some_iff.1 h
    cases hb
    have hreaching := (State.restores_tracks env).reaching q k handled s
    cases State.looked_of_lookup hlookup with
    | reentered _ hheld => exact absurd (hreaching.loading (State.get?_opened hheld)) (hs.loaded k)
    | held _ _ _ => cases hf
    | loaded _ _ hfetch =>
      obtain ⟨w, -, rfl⟩ := State.fetch_error hfetch hf
      exact Table.get?_erase_self _ k

/-- A query that succeeds leaves its rows, unless they were handed over one by one. -/
theorem inside_ok (hs : s.session.Reached env) {vs : List Value}
    (h : env.inside limit q k handled s = some (a, u)) (hvs : a.result = .ok vs) :
    (handled = true ∧ u.session.loaded.get? k = none) ∨
      (handled = false ∧ u.session.loaded.get? k = some (.rows vs)) := by
  cases limit with
  | zero => cases h
  | succ limit =>
    obtain ⟨⟨b, v⟩, hlookup, hb⟩ := Option.map_eq_some_iff.1 h
    cases hb
    cases State.looked_of_lookup hlookup with
    | reentered _ _ => cases hvs
    | @held e _ hhandled hheld hws =>
      cases hvs
      have hbefore : s.session.loaded.get? k = some e := by
        have hreaching := State.get?_opened hheld
        rwa [Session.eq_of_own_eq (State.own_reaching q k handled s)] at hreaching
      obtain ⟨ws, rfl⟩ := hs.rows hbefore
      cases hws
      refine .inr ⟨hhandled, ?_⟩
      rw [State.leave, State.loaded_restoreOutputs]
      exact hheld
    | loaded _ _ hfetch =>
      obtain ⟨w, -, rfl⟩ := State.fetch_ok hfetch hvs
      rw [State.leave, State.loaded_keepOutputs]
      cases handled with
      | true => exact .inl ⟨rfl, Table.get?_erase_self _ k⟩
      | false => exact .inr ⟨rfl, Table.get?_insert_self _ k _⟩

end Outermost

/-- Whether a call drops what an open session holds. -/
def Call.empties {β : Type} (c : Call β) : Bool :=
  match c with
  | .update .. | .commit _ | .rollback _ | .close _ | .clearLoaded => true
  | _ => false

theorem Call.isQuery_of_empties {β : Type} {c : Call β} (hc : c.empties = true) :
    c.isQuery = false := by
  cases c with
  | query q key handled => cases hc
  | _ => rfl

/-- The session holds no results and no output parameters. -/
structure Session.Bare (s : Session) : Prop where
  loaded : s.loaded = .empty
  outputs : s.outputs = .empty

namespace Session

theorem Bare.of_own_eq {s t : Session} (hs : s.Bare) (h : t.own = s.own) : t.Bare := by
  rw [eq_of_own_eq h]
  exact ⟨hs.loaded, hs.outputs⟩

theorem Bare.clearLoaded {s : Session} (hs : s.Bare) : s.clearLoaded.Bare := by
  rw [Session.clearLoaded]
  split
  · exact hs
  · exact ⟨rfl, rfl⟩

theorem bare_clearLoaded {s : Session} (hs : s.closed = false) : s.clearLoaded.Bare := by
  rw [clearLoaded, hs]
  exact ⟨rfl, rfl⟩

end Session

namespace State

variable {s t : State τ}

theorem bare_rollbackLocal (hs : s.session.closed = false) (D : DataSource τ) (required : Bool) :
    (s.rollbackLocal D required).2.session.Bare := by
  have hbare : s.clearLoaded.session.Bare := Session.bare_clearLoaded hs
  rw [rollbackLocal]
  split
  · exact hbare
  · exact hbare

theorem bare_commit (hs : s.session.closed = false) (D : DataSource τ) (required : Bool) :
    (s.commit D required).2.session.Bare := by
  have hbare : s.clearLoaded.session.Bare := Session.bare_clearLoaded hs
  rw [commit, if_neg (by simp [hs])]
  dsimp only
  split
  · have hsource : (s.clearLoaded.source D.commit).2.session.Bare := hbare
    generalize s.clearLoaded.source D.commit = x at hsource
    obtain ⟨_ | ⟨⟩, u⟩ := x
    · exact hsource
    · exact ⟨hsource.loaded, hsource.outputs⟩
  · exact ⟨hbare.loaded, hbare.outputs⟩

theorem bare_close (hs : s.session.closed = false) (D : DataSource τ) (force : Bool) :
    (s.close D force).2.session.Bare := by
  rw [close, if_neg (by simp [hs])]
  dsimp only
  cases force with
  | true =>
    have hbare := bare_rollbackLocal (s := s.rollbackBuffers) hs D true
    exact ⟨hbare.loaded, hbare.outputs⟩
  | false =>
    have hbare := bare_rollbackLocal (s := s.commitBuffers.2) hs D false
    exact ⟨hbare.loaded, hbare.outputs⟩

theorem ensureOpen_eq (hs : s.session.closed = false) : s.session.ensureOpen = .ok () := by
  rw [Session.ensureOpen, hs]
  rfl

theorem bare_rollback (hs : s.session.closed = false) (D : DataSource τ) (required : Bool) :
    (s.rollback D required).2.session.Bare := by
  have hbare := bare_rollbackLocal hs D required
  rw [rollback, ensureOpen_eq hs]
  exact ⟨hbare.loaded, hbare.outputs⟩

/-- After a query that succeeded up to its ending, a session that keeps results for one query only
holds nothing. -/
theorem bare_finish {a : Reply} {vs : List Value} (hvs : a.result = .ok vs)
    (hscope : s.session.config.scope = .statement) (hs : s.session.closed = false) :
    (s.finish a).2.session.Bare := by
  have hdrain : s.drain.2.session.closed = false := hs
  rw [finish_ok hvs, if_pos hscope]
  exact Session.bare_clearLoaded hdrain

/-- Any other session holds what it held. -/
theorem loaded_finish {a : Reply} {vs : List Value} (hvs : a.result = .ok vs)
    (hscope : s.session.config.scope = .session) :
    (s.finish a).2.session.loaded = s.session.loaded := by
  have hscope' : ¬ s.session.config.scope = .statement := by
    rw [hscope]
    decide
  rw [finish_ok hvs, if_neg hscope']
  rfl

/-- A call that empties the session leaves nothing. -/
theorem bare_of_empties {env : Env τ} {nested : Answering τ} {β : Type} {c : Call β} {b : β}
    (hc : c.empties = true) (hs : s.session.closed = false)
    (h : c.run env nested s = some (b, t)) : t.session.Bare := by
  have hopen := ensureOpen_eq hs
  rw [Call.eq_after (Call.isQuery_of_empties hc) h]
  cases c with
  | update st param =>
    have hflush : (s.flush st).session.closed = false := (closed_flush st s).trans hs
    have hbare := Session.bare_clearLoaded hflush
    rw [Call.after, update, hopen]
    exact hbare
  | commit required => exact bare_commit hs env.source required
  | rollback required => exact bare_rollback hs env.source required
  | close force => exact bare_close hs env.source force
  | clearLoaded => exact Session.bare_clearLoaded hs
  | _ => cases hc

/-- Any other call that is no query drops and keeps nothing. -/
theorem kept_of_quick {env : Env τ} {nested : Answering τ} {β : Type} {c : Call β} {b : β}
    (hc : c.empties = false) (hquery : c.isQuery = false) (h : c.run env nested s = some (b, t)) :
    t.session.loaded = s.session.loaded ∧ t.session.outputs = s.session.outputs ∧
      t.session.closed = s.session.closed := by
  rw [Call.eq_after hquery h]
  cases c with
  | query q key handled => cases hquery
  | key q => exact ⟨rfl, rfl, rfl⟩
  | isLoaded k => exact ⟨rfl, rfl, rfl⟩
  | isClosed => exact ⟨rfl, rfl, rfl⟩
  | config => exact ⟨rfl, rfl, rfl⟩
  | defer d =>
    obtain ⟨h, ds, hdefer⟩ := s.defer_deferred d
    rw [Call.after, hdefer]
    exact ⟨rfl, rfl, rfl⟩
  | _ => cases hc

theorem ensureOpen_closed (hs : s.session.closed = true) :
    s.session.ensureOpen = .error (.closed .session) := by
  rw [Session.ensureOpen, hs]
  rfl

/-- A closed session does nothing any more. -/
theorem own_of_closed {env : Env τ} {nested : Answering τ} {β : Type} {c : Call β} {b : β}
    (hs : s.session.closed = true) (hquery : c.isQuery = false)
    (h : c.run env nested s = some (b, t)) : t.session.own = s.session.own := by
  have hopen := ensureOpen_closed hs
  rw [Call.eq_after hquery h]
  cases c with
  | query q key handled => cases hquery
  | defer d => rw [Call.after, defer, hopen]
  | update st param => rw [Call.after, update, hopen]
  | commit required => rw [Call.after, commit, if_pos hs]
  | rollback required => rw [Call.after, rollback, hopen]
  | close force => rw [Call.after, close, if_pos hs]
  | clearLoaded => rw [Call.after, clearLoaded, Session.clearLoaded, if_pos hs]
  | _ => rfl

end State

section Nested

variable {H : ComponentHash} {D : DataSource τ} {ns : String → List NestedSelect} {limit : Nat}
  {q : Query} {key : Option Key} {k : Key} {handled : Bool} {s t : State τ} {reply : Reply}

/-- A closed session answers no query and keeps everything as it is. -/
theorem perform_query_closed {env : Env τ} (hs : s.session.closed = true)
    (h : env.perform limit (.query q key handled) s = some (reply, t)) :
    reply.result = .error (.closed .session) ∧ t.session.own = s.session.own := by
  have hopen := State.ensureOpen_closed hs
  have hanswer : ∀ j, env.answer limit q j handled s = some (reply, t) →
      reply.result = .error (.closed .session) ∧ t.session.own = s.session.own := by
    intro j hj
    cases limit with
    | zero => cases hj
    | succ limit =>
      rw [Env.answer, State.answerOnce, hopen] at hj
      cases hj
      exact ⟨rfl, rfl⟩
  cases key with
  | some j => exact hanswer j h
  | none =>
    rw [Env.perform, Call.run, State.key, hopen] at h
    cases h
    exact ⟨rfl, rfl⟩

/-- In an open session a query from outside is answered under its own key or a given one. -/
theorem perform_query_eq {env : Env τ} (hs : s.session.closed = false) :
    env.perform limit (.query q key handled) s =
      env.answer limit q (key.getD (Session.keyOf env.hash s.heap s.session.config q)) handled
        s := by
  apply perform_query
  cases key with
  | some j => rfl
  | none =>
    change s.key env.hash q = _
    rw [State.key, State.ensureOpen_eq hs]
    rfl

theorem perform_query_open {env : Env τ} (hs : s.session.closed = false)
    (h : env.perform limit (.query q key handled) s = some (reply, t)) :
    env.answer limit q (key.getD (Session.keyOf env.hash s.heap s.session.config q)) handled s =
      some (reply, t) := by
  rw [← perform_query_eq hs]
  exact h

/-- A session that was closed holds nothing. -/
theorem Session.Reached.bare {s : Session} (hs : s.Reached (.nested H D ns))
    (hclosed : s.closed = true) : s.Bare := by
  induction hs with
  | new c => cases hclosed
  | @call s w limit β c b t hs hcall ih =>
    cases hbefore : s.closed with
    | true =>
      have hbare := ih hbefore
      cases hquery : c.isQuery with
      | false => exact hbare.of_own_eq (State.own_of_closed (s := ⟨s, w⟩) hbefore hquery hcall)
      | true =>
        cases c with
        | query q key handled =>
          exact hbare.of_own_eq (perform_query_closed (s := ⟨s, w⟩) hbefore hcall).2
        | _ => cases hquery
    | false =>
      -- this call closed the session, so it is one that empties it
      have hstays : c.isQuery = true → t.session.closed = s.closed := by
        intro hquery
        cases c with
        | query q key handled =>
          have hnested : Call.OfNested _ (.query q key handled) := trivial
          exact (State.closed_tracks H D ns).perform hnested hcall
        | _ => cases hquery
      cases hquery : c.isQuery with
      | true =>
        rw [hstays hquery, hbefore] at hclosed
        cases hclosed
      | false =>
        cases hempties : c.empties with
        | true => exact State.bare_of_empties (s := ⟨s, w⟩) hempties hbefore hcall
        | false =>
          obtain ⟨-, -, hsame⟩ := State.kept_of_quick (s := ⟨s, w⟩) hempties hquery hcall
          rw [hsame, hbefore] at hclosed
          cases hclosed

end Nested

end ResultCache
