import ResultCache.Proofs.Session.Outermost

/-!
# Queries that failed are run again

A query succeeds only with rows of its shared cache, with results that the session holds for its key,
or with what the data source returns (`State.Origin`). So where nothing is held for the key of a query
that failed, the data source is asked again (`Session.retries`). That is so after every outermost
query that failed (`failed_query_retried`), but for one that failed last of all, when it set a property
that waited: its rows were kept before that (`late_failure_is_served`).
-/
namespace ResultCache

variable {τ : Type}

/-- Nothing is held for the key, so a query for it only succeeds with rows of a shared cache or with
what the data source returns. -/
def Session.Retries (env : Env τ) (q : Query) (k : Key) (s : Session) : Prop :=
  s.loaded.get? k = none ∧
    ∀ (w : World τ) limit handled reply t vs,
      env.answer limit q k handled ⟨s, w⟩ = some (reply, t) → reply.result = .ok vs →
      State.early q k handled ⟨s, w⟩ = some (.ok vs) ∨ State.Loads env q k handled ⟨s, w⟩ vs

theorem Session.retries {env : Env τ} {q : Query} {k : Key} {s : Session}
    (h : s.loaded.get? k = none) : s.Retries env q k := by
  refine ⟨h, fun w limit handled reply t vs hanswer hvs => ?_⟩
  cases State.origin_of_answer hanswer hvs with
  | shared hearly => exact .inl hearly
  | held _ hheld _ =>
    have hk : s.loaded.get? k = some _ := State.get?_opened hheld
    rw [h] at hk
    cases hk
  | source _ hloads => exact .inr hloads

section Nested

variable {H : ComponentHash} {D : DataSource τ} {ns : String → List NestedSelect} {limit : Nat}
  {q : Query} {key : Option Key} {k : Key} {handled : Bool} {s t u : State τ} {reply a : Reply}

/-- An outermost query that fails, having run inside the session, leaves nothing for its key, or it
leaves the rows that it kept before a property that waited could not be set. -/
theorem get?_finish_of_fault (hs : s.session.Reached (.nested H D ns))
    (hopen : s.session.closed = false) {f : Fault}
    (hinside : (Env.nested H D ns).inside limit q k handled s = some (a, u))
    (hf : (u.finish a).1.result = .error f) :
    (u.finish a).2.session.loaded.get? k = none ∨
      (handled = false ∧ s.session.config.scope = .session ∧
        ∃ vs, a.result = .ok vs ∧ u.drain.1 = .error f ∧
          (u.finish a).2.session.loaded.get? k = some (.rows vs)) := by
  have hrestores : s.Restores u := (State.restores_tracks _).envInside hinside
  -- it failed inside, or its rows were kept and a property that waited could not be set
  obtain ha | ⟨vs, ha, hdrain⟩ := State.fault_finish hf
  · have hnone := inside_error hs.idle hinside ha
    rw [State.finish_error ha]
    exact .inl hnone
  · cases hscope : s.session.config.scope with
    | statement =>
      have hopen' : u.session.closed = false :=
        ((State.closed_tracks H D ns).envInside hinside).trans hopen
      have hbare := State.bare_finish ha (hrestores.config ▸ hscope) hopen'
      rw [hbare.loaded]
      exact .inl (Table.get?_empty k)
    | session =>
      rw [State.loaded_finish ha (hrestores.config ▸ hscope)]
      obtain ⟨-, hnone⟩ | ⟨hhandled, hkept⟩ := inside_ok hs hinside ha
      · exact .inl hnone
      · exact .inr ⟨hhandled, rfl, vs, ha, hdrain, hkept⟩

/-- An outermost query that fails holds nothing for its key, and is run again when it is asked for
again, except in two cases: it was answered early, with a fault, and nothing changed; or it kept its
rows before a property that waited could not be set. -/
theorem failed_query_retried (hs : s.session.Reached (.nested H D ns)) {f : Fault}
    (hperform : (Env.nested H D ns).perform limit (.query q key handled) s = some (reply, t))
    (hf : reply.result = .error f) :
    let k := key.getD (Session.keyOf H s.heap s.session.config q)
    t.session.Retries (.nested H D ns) q k ∨
      (s.session.closed = false ∧ s.early q k handled = some (.error f) ∧
        t.session.own = s.session.own) ∨
      (handled = false ∧ s.session.config.scope = .session ∧
        ∃ a u vs, (Env.nested H D ns).inside limit q k false s = some (a, u) ∧
          a.result = .ok vs ∧ u.drain.1 = .error f ∧
          t.session.loaded.get? k = some (.rows vs)) := by
  intro k
  cases hclosed : s.session.closed with
  | true =>
    have hown := (perform_query_closed hclosed hperform).2
    have hbare := (hs.bare hclosed).of_own_eq hown
    exact .inl (Session.retries (by rw [hbare.loaded, Table.get?_empty]))
  | false =>
    have hanswer : (Env.nested H D ns).answer limit q k handled s = some (reply, t) :=
      perform_query_open hclosed hperform
    obtain ⟨r, hearly, rfl, hown⟩ | ⟨-, a, u, hinside, rfl, hown, -⟩ :=
      outermost_cases hs.idle hanswer
    · cases hf
      exact .inr (.inl ⟨rfl, hearly, hown⟩)
    · have hloaded : t.session.loaded = (u.finish a).2.session.loaded := by
        rw [Session.eq_of_own_eq hown]
      obtain hnone | ⟨rfl, hscope, vs, ha, hdrain, hkept⟩ :=
        get?_finish_of_fault hs hclosed hinside hf
      · exact .inl (Session.retries (by rw [hloaded, hnone]))
      · exact .inr (.inr ⟨rfl, hscope, a, u, vs, hinside, ha, hdrain, by rw [hloaded, hkept]⟩)

end Nested

/-- A data source whose queries are counted, and refused at the given counts. -/
def DataSource.refusing (D : DataSource Unit) (calls : List Nat) : DataSource Nat where
  query st b param w h n :=
    if n + 1 ∈ calls then (.error (.execution (.reported "refused")), h, n + 1)
    else
      let (r, h, _) := D.query st b param w h ()
      (r, h, n + 1)
  update st b param h n :=
    let (r, h, _) := D.update st b param h ()
    (r, h, n)
  commit n := ((D.commit ()).1, n)
  rollback n := ((D.rollback ()).1, n)
  close n := n

def countedState (c : Session.Config) : State Nat := ⟨.ofConfig c, ⟨.empty, .empty, 0, 0⟩⟩

def selfAsk : Query := .ofStatement selfQuery (.int 1) .unbounded

/-- The only row is refused once. -/
def refusedRow : Env Nat := .nested flatHash (.refusing .oneRow [1]) selfSelects

/-- Nothing is held for the query that was refused. -/
theorem failed_query_retried_refusedRow :
    ∃ reply t f, refusedRow.perform 1 (.query selfAsk none false) (countedState .standard) =
        some (reply, t) ∧ reply.result = .error f ∧
      t.session.Retries refusedRow selfAsk selfKey := by
  have hrun : (refusedRow.perform 1 (.query selfAsk none false) (countedState .standard)).map
      (fun p => (p.1.result, p.2.session.loaded.get? selfKey)) =
        some (.error (.execution (.reported "refused")), none) := by cbv
  obtain ⟨⟨reply, t⟩, hperform, hresult⟩ := Option.map_eq_some_iff.1 hrun
  have hf : reply.result = .error (.execution (.reported "refused")) := congrArg Prod.fst hresult
  have hnone : t.session.loaded.get? selfKey = none := congrArg Prod.snd hresult
  have hreached : (countedState .standard).session.Reached refusedRow := .new .standard .insertion
  obtain hretries | ⟨-, hearly, -⟩ | ⟨-, -, _, _, _, -, -, -, hheld⟩ :=
    failed_query_retried hreached hperform hf
  · exact ⟨reply, t, _, hperform, hf, hretries⟩
  · cases hearly
  · cases hnone.symm.trans hheld

/-- The first query fails. Then the session holds rows that it answers the second query with, and the
data source is not asked for them. -/
def Env.ServesAfter (env : Env Nat) (limit : Nat) (q q' : Query) (k' : Key) (s : State Nat) : Prop :=
  ∃ f t vs u, env.perform limit (.query q none false) s = some (.ofResult (.error f), t) ∧
    t.session.loaded.get? k' = some (.rows vs) ∧
    env.perform limit (.query q' none false) t = some (.ofResult (.ok vs), u) ∧
    u.world.source = t.world.source

theorem Env.servesAfter {env : Env Nat} {limit : Nat} {q q' : Query} {k' : Key} {s : State Nat}
    {f : Fault} {vs : List Value} {n : Nat}
    (h : ((env.perform limit (.query q none false) s).bind fun p =>
      (env.perform limit (.query q' none false) p.2).map fun p' =>
        ((p.1, p.2.session.loaded.get? k', p.2.world.source), (p'.1, p'.2.world.source))) =
      some ((.ofResult (.error f), some (.rows vs), n), (.ofResult (.ok vs), n))) :
    env.ServesAfter limit q q' k' s := by
  obtain ⟨⟨reply, t⟩, hperform, hrest⟩ := Option.bind_eq_some_iff.1 h
  obtain ⟨⟨again, u⟩, hagain, hp⟩ := Option.map_eq_some_iff.1 hrest
  simp only [Prod.mk.injEq] at hp
  obtain ⟨⟨rfl, hheld, hn⟩, rfl, hn'⟩ := hp
  exact ⟨f, t, vs, u, hperform, hheld, hagain, hn'.trans hn.symm⟩

/-- Two rows, each of which has the only row of its own query as a property. -/
def twins : Env Nat :=
  .nested flatHash (.refusing
    (.ofRows (fun _ _ => [.ofList [("id", .int 1)], .ofList [("id", .int 1)]]) .empty) [])
    selfSelects

/-- A property that waits for the rows it is a part of fails when these are kept already. So the
query fails, and the next time it is answered with them. -/
theorem late_failure_is_served :
    twins.ServesAfter 1 selfAsk selfAsk selfKey (countedState .standard) := by
  have hrun : ((twins.perform 1 (.query selfAsk none false) (countedState .standard)).bind fun p =>
      (twins.perform 1 (.query selfAsk none false) p.2).map fun p' =>
        ((p.1, p.2.session.loaded.get? selfKey, p.2.world.source), (p'.1, p'.2.world.source))) =
      some ((.ofResult (.error (.extraction .manyRows)),
          some (.rows [.object ⟨0⟩, .object ⟨1⟩]), 1),
        (.ofResult (.ok [.object ⟨0⟩, .object ⟨1⟩]), 1)) := by cbv
  exact Env.servesAfter hrun

end ResultCache
