import ResultCache.Proofs.Session.Once

/-!
# Rows that are handed over one by one

A query whose rows are handed over one by one looks for nothing among the results of the session, but
it puts a mark for its key and takes it away like any other. So a completed result under that very key
is lost, whether the query succeeds or fails (`handing_loses_its_own_result`); every other result
that the session held is still held (`handing_keeps_other_results`).

What carries the proof is `Session.Holds`: no query inside loads a key for which the session holds a
completed result, and the key of the query itself is marked while they run.
-/
namespace ResultCache

variable {τ : Type}

/-- The session, which keeps its results, holds the entries of `K` while `d` queries are running, and
none of them is for a key that is being loaded. -/
structure Session.Holds (K : Key → Entry → Prop) (d : Nat) (ks : List Key) (s : Session) : Prop where
  scope : s.config.scope = .session
  depth : s.depth = d
  held : ∀ j e, K j e → s.loaded.get? j = some e
  free : ∀ k ∈ ks, ∀ e, ¬ K k e

namespace Session.Holds

variable {K : Key → Entry → Prop} {d : Nat} {ks : List Key} {s t : State τ} {k : Key}

theorem of_eq (hs : s.session.Holds K d ks) (hconfig : t.session.config = s.session.config)
    (hdepth : t.session.depth = s.session.depth) (hloaded : t.session.loaded = s.session.loaded) :
    t.session.Holds K d ks := by
  refine ⟨by rw [hconfig, hs.scope], by rw [hdepth, hs.depth], fun j e he => ?_, hs.free⟩
  rw [hloaded]
  exact hs.held j e he

theorem mark (hs : s.session.Holds K d ks) (hk : ∀ e, ¬ K k e) :
    (s.mark k).session.Holds K d (k :: ks) := by
  refine ⟨hs.scope, hs.depth, fun j e he => ?_, List.forall_mem_cons.2 ⟨hk, hs.free⟩⟩
  have hne : j ≠ k := by
    rintro rfl
    exact hk e he
  rw [State.mark, Table.get?_insert_of_ne _ _ hne]
  exact hs.held j e he

theorem unmark (hs : s.session.Holds K d (k :: ks)) : (s.unmark k).session.Holds K d ks := by
  obtain ⟨hk, hfree⟩ := List.forall_mem_cons.1 hs.free
  refine ⟨hs.scope, hs.depth, fun j e he => ?_, hfree⟩
  have hne : j ≠ k := by
    rintro rfl
    exact hk e he
  rw [State.unmark, Table.get?_erase_of_ne _ hne]
  exact hs.held j e he

theorem kept (hs : s.session.Holds K d (k :: ks)) (vs : List Value) :
    ((s.unmark k).keepRows k vs).session.Holds K d ks := by
  obtain ⟨hk, -⟩ := List.forall_mem_cons.1 hs.free
  have hu := hs.unmark
  refine ⟨hu.scope, hu.depth, fun j e he => ?_, hu.free⟩
  have hne : j ≠ k := by
    rintro rfl
    exact hk e he
  rw [State.keepRows, Table.get?_insert_of_ne _ _ hne]
  exact hu.held j e he

/-- A key that is loaded is none of those for which a completed result is held. -/
theorem not_fetched (hK : ∀ j e, K j e → e.results?.isSome) (hs : s.session.Holds K d ks)
    (hfetches : s.fetches k false = true) (e : Entry) : ¬ K k e := by
  intro he
  obtain ⟨vs, hvs⟩ := Option.isSome_iff_exists.1 (hK k e he)
  rw [State.fetches, hs.held k e he] at hfetches
  cases e with
  | absence => cases hfetches
  | rows ws => cases hfetches
  | loading => cases hvs
  | encoded bs => cases hvs

theorem finish (hs : s.session.Holds K d ks) (reply : Reply)
    (hrestores : s.Restores (s.finish reply).2) : (s.finish reply).2.session.Holds K d ks := by
  refine hs.of_eq hrestores.config hrestores.depth ?_
  cases hreply : reply.result with
  | error f => rw [State.finish_error hreply]
  | ok vs => exact State.loaded_finish hreply hs.scope

end Session.Holds

/-- Whatever is done inside a query, short of emptying the session, its completed results stay. -/
theorem holds_follows {env : Env τ} {K : Key → Entry → Prop}
    (henv : ∀ st rs, (env.materializer st rs).Confined Call.Lasting)
    (hK : ∀ j e, K j e → e.results?.isSome) :
    Follows env Call.Lasting (fun st => st.flushes = false)
      (fun d ks _ s => s.session.Holds K d ks) fun _ _ _ => True where
  confined := henv
  quick := by
    intro β c d ks L s hc hquery hs
    cases c with
    | query q key handled => cases hquery
    | defer e =>
      obtain ⟨h, ds, hdefer⟩ := s.defer_deferred e
      rw [Call.after, hdefer]
      exact hs.of_eq rfl rfl rfl
    | key q => exact hs
    | isLoaded k => exact hs
    | isClosed => exact hs
    | config => exact hs
    | _ => exact hc.elim
  quiet hs hconfig hdepth hloaded _ _ := hs.of_eq hconfig hdepth hloaded
  flush st hs := by
    obtain ⟨bs, hflush⟩ := State.flush_buffers st _
    rw [hflush]
    exact hs.of_eq rfl rfl rfl
  read r k hs := hs.of_eq rfl rfl rfl
  served {_ _ _ s r k _ _} hs _ _ := hs.of_eq (t := (s.readShared r k).2) rfl rfl rfl
  answered _ hs _ := hs
  put r hs _ := hs.of_eq rfl rfl rfl
  release r k hs := hs.of_eq rfl rfl rfl
  anew hopens hflushes _ := by
    rw [hopens] at hflushes
    cases hflushes
  enter hs := ⟨hs.scope, congrArg (· + 1) hs.depth, hs.held, hs.free⟩
  leave hs := ⟨hs.scope, congrArg (· - 1) hs.depth, hs.held, hs.free⟩
  finish reply hs := hs.finish reply ((State.restores_tracks env).finish reply _ hs.depth)
  depth hs := hs.depth
  held _ _ _ := trivial
  mark hq hfetches hs := by
    obtain rfl : _ = false := hq
    exact hs.mark (hs.not_fetched hK hfetches)
  unmark hs := hs.unmark
  kept vs _ hs := hs.kept vs
  handed _ hq _ := by cases hq
  backs_loads _ _ _ := trivial

section Handed

variable {env : Env τ} {limit : Nat} {q : Query} {key : Option Key} {k : Key} {s t : State τ}
  {reply : Reply}

/-- A shared cache does not answer a query whose rows are handed over one by one. -/
theorem State.early_handed (hopen : s.session.closed = false) : s.early q k true = none := by
  rw [early, ensureOpen_eq hopen]
  dsimp only
  split
  · rfl
  · exact if_pos (by simp)

/-- In an open session that runs no query, the rows are loaded under a mark for the key, whatever is
held for it, and then the query ends. -/
theorem handed_cases (hdepth : s.session.depth = 0) (hopen : s.session.closed = false)
    (h : env.answer limit q k true s = some (reply, t)) :
    ∃ n a u, limit = n + 1 ∧
      ((s.reaching q k true).opened q).enter.fetch env (env.answer n) q k true = some (a, u) ∧
      t.session.own = (u.leave.finish a).2.session.own := by
  cases limit with
  | zero => cases h
  | succ limit =>
    cases State.ended_of_answerOnce h with
    | early hearly _ =>
      rw [State.early_handed hopen] at hearly
      cases hearly
    | @late a _ v _ hinside hown _ =>
      have henv : env.inside (limit + 1) q k true s = some (a, v) := hinside
      have hend : ¬ 0 < v.session.depth := by
        rw [((State.restores_tracks env).envInside henv).depth, hdepth]
        decide
      rw [State.ending, if_neg hend] at hown
      obtain ⟨⟨b, u⟩, hlookup, hb⟩ := Option.map_eq_some_iff.1 hinside
      cases hb
      exact ⟨limit, b, u, rfl, hlookup, hown⟩

/-- The completed results of a session, apart from what it holds for one key. -/
def Session.CompletedBut (k : Key) (s : Session) (j : Key) (e : Entry) : Prop :=
  j ≠ k ∧ s.loaded.get? j = some e ∧ e.results?.isSome

theorem State.holds_asking (hscope : s.session.config.scope = .session)
    (hdepth : s.session.depth = 0) (hflushes : q.statement.flushes = false) :
    (((s.reaching q k true).opened q).enter.mark k).session.Holds (s.session.CompletedBut k) 1
      [k] := by
  have hopened : (s.reaching q k true).opened q = s.reaching q k true := by
    rw [opened, hflushes, Bool.and_false]
    rfl
  have hown := Session.eq_of_own_eq (own_reaching q k true s)
  have hs : (s.reaching q k true).enter.session.Holds (s.session.CompletedBut k) 1 [] := by
    rw [State.enter, hown]
    exact ⟨hscope, congrArg (· + 1) hdepth, fun j e he => he.2.1, List.forall_mem_nil _⟩
  rw [hopened]
  exact hs.mark fun e he => he.1 rfl

/-- A load inside a session keeps its completed results, and its end takes away what there was for
its own key. -/
theorem State.loaded_of_fetch_handed (henv : ∀ st rs, (env.materializer st rs).Confined Call.Lasting)
    {K : Key → Entry → Prop} (hK : ∀ j e, K j e → e.results?.isSome) {n : Nat}
    (hs : (s.mark k).session.Holds K 1 [k])
    (h : s.fetch env (env.answer n) q k true = some (reply, t)) :
    t.session.Holds K 1 [] ∧ t.session.loaded.get? k = none := by
  have hS := holds_follows henv hK
  have hnested : Follows.Inside Call.Lasting (fun d ks _ (v : State τ) => v.session.Holds K d ks)
      (env.answer n) (env.story n) 1 := by
    intro q' key' k' handled' ks L v w reply' hq' hv hheld
    exact hS.answer (L := L) hq' (fun hzero => by cases hzero) hv hheld
  have hload : ∀ u, (s.mark k).load env (env.answer n) q true = some (reply, u) →
      u.session.Holds K 1 [k] := fun u hu => hS.load (L := []) @hnested hu hs
  cases hresult : reply.result with
  | error f =>
    obtain ⟨u, hu, rfl⟩ := fetch_error h hresult
    exact ⟨(hload u hu).unmark, Table.get?_erase_self _ k⟩
  | ok vs =>
    obtain ⟨u, hu, rfl⟩ := fetch_ok h hresult
    rw [if_pos rfl]
    refine ⟨hS.keepOutputs (L := []) q k (hload u hu).unmark, ?_⟩
    rw [loaded_keepOutputs]
    exact Table.get?_erase_self _ k

/-- A query whose rows are handed over one by one leaves every completed result that the session
held, apart from the one for its own key: there is nothing for that key afterwards, whether the query
succeeds or fails and wherever it fails. A closed session holds what it held. -/
theorem handing_keeps_other_results
    (henv : ∀ st rs, (env.materializer st rs).Confined Call.Lasting)
    (hdepth : s.session.depth = 0) (hscope : s.session.config.scope = .session)
    (hflushes : q.statement.flushes = false)
    (h : env.perform limit (.query q key true) s = some (reply, t)) (j : Key) (e : Entry)
    (he : s.session.loaded.get? j = some e) (hcompleted : e.results?.isSome) :
    t.session.loaded.get? j =
      if s.session.closed = false ∧
        j = key.getD (Session.keyOf env.hash s.heap s.session.config q) then none
      else some e := by
  cases hopen : s.session.closed with
  | true =>
    obtain ⟨-, hown⟩ := perform_query_closed hopen h
    rw [Session.eq_of_own_eq hown, if_neg (by simp)]
    exact he
  | false =>
    have hanswer := perform_query_open hopen h
    generalize key.getD (Session.keyOf env.hash s.heap s.session.config q) = k at hanswer
    obtain ⟨n, a, u, -, hfetch, hown⟩ := handed_cases hdepth hopen hanswer
    obtain ⟨hu, hnone⟩ := State.loaded_of_fetch_handed henv (fun j e he => he.2.2)
      (State.holds_asking hscope hdepth hflushes) hfetch
    have hloaded : t.session.loaded = u.session.loaded := by
      have hfinish : (u.leave.finish a).2.session.loaded = u.session.loaded := by
        cases ha : a.result with
        | error f => rw [State.finish_error ha]; rfl
        | ok vs => exact State.loaded_finish ha hu.scope
      rw [Session.eq_of_own_eq hown]
      exact hfinish
    rw [hloaded]
    by_cases hj : j = k
    · rw [if_pos ⟨rfl, hj⟩, hj]
      exact hnone
    · rw [if_neg fun hk => hj hk.2]
      exact hu.held j e ⟨hj, he, hcompleted⟩

end Handed

/-- An author is asked for, and then asked for again with rows handed over: the book of the author is
still held. -/
theorem handing_keeps_other_results_readingRoom :
    ∃ first s second t, (readingRoom []).perform 2 (.query (askOne authorQuery) none false)
        (countedState .standard) = some (first, s) ∧
      (readingRoom []).perform 2 (.query (askOne authorQuery) none true) s = some (second, t) ∧
      (s.session.depth = 0 ∧ s.session.config.scope = .session ∧ authorQuery.flushes = false) ∧
      s.session.loaded.get? bookKey = some (.rows [.object ⟨1⟩]) ∧
      t.session.loaded.get? bookKey = some (.rows [.object ⟨1⟩]) := by
  have hrun : ((readingRoom []).perform 2 (.query (askOne authorQuery) none false)
      (countedState .standard)).bind (fun p =>
        ((readingRoom []).perform 2 (.query (askOne authorQuery) none true) p.2).map fun _ =>
          (p.2.session.depth, p.2.session.config.scope, p.2.session.loaded.get? bookKey,
            decide (bookKey =
              Session.keyOf (readingRoom []).hash p.2.heap p.2.session.config
                (askOne authorQuery)))) =
      some (0, .session, some (.rows [.object ⟨1⟩]), false) := by cbv
  obtain ⟨⟨first, s⟩, hfirst, hrest⟩ := Option.bind_eq_some_iff.1 hrun
  obtain ⟨⟨second, t⟩, hsecond, hp⟩ := Option.map_eq_some_iff.1 hrest
  simp only [Prod.mk.injEq] at hp
  obtain ⟨hdepth, hscope, hbook, hkey⟩ := hp
  have hkept := handing_keeps_other_results
    (fun st rs => NestedSelect.confined_objects NestedSelect.allowed_lasting (readingSelects st.id)
      rs) hdepth hscope rfl hsecond bookKey _ hbook rfl
  rw [Option.getD_none, if_neg fun hk => of_decide_eq_false hkey hk.2] at hkept
  exact ⟨first, s, second, t, hfirst, hsecond, ⟨hdepth, hscope, rfl⟩, hbook, hkept⟩

/-- Handing rows over leaves all completed results of a session that keeps them. -/
def Env.HandsWithoutLoss (env : Env τ) : Prop :=
  ∀ (limit : Nat) (q : Query) (key : Option Key) (s t : State τ) (reply : Reply),
    s.session.Reached env → s.session.config.scope = .session → q.statement.flushes = false →
    env.perform limit (.query q key true) s = some (reply, t) →
    ∀ j e, s.session.loaded.get? j = some e → e.results?.isSome →
      t.session.loaded.get? j = some e

/-- A query that was answered is asked again with rows handed over, and its result is gone. -/
theorem handing_loses_its_own_result :
    ¬ (Env.nested flatHash .oneRow fun _ => []).HandsWithoutLoss := by
  intro hlossless
  have hrun : ((Env.nested flatHash .oneRow fun _ => []).perform 1 (.query selfAsk none false)
      newState).bind (fun p =>
        ((Env.nested flatHash .oneRow fun _ => []).perform 1 (.query selfAsk none true) p.2).map
          fun p' => (p.2.session.loaded.get? selfKey, p'.2.session.loaded.get? selfKey)) =
      some (some (.rows [.object ⟨0⟩]), none) := by cbv
  obtain ⟨⟨first, s⟩, hfirst, hrest⟩ := Option.bind_eq_some_iff.1 hrun
  obtain ⟨⟨second, t⟩, hsecond, hp⟩ := Option.map_eq_some_iff.1 hrest
  obtain ⟨hheld, hgone⟩ := Prod.mk.inj hp
  have hreached : s.session.Reached (Env.nested flatHash .oneRow fun _ => []) :=
    .call (.new .standard .insertion) hfirst
  have hscope : s.session.config.scope = .session := by
    rw [((State.restores_tracks _).perform trivial hfirst).config]
    rfl
  have hkept := hlossless 1 selfAsk none s t second hreached hscope rfl hsecond selfKey _ hheld rfl
  rw [hgone] at hkept
  cases hkept

end ResultCache
