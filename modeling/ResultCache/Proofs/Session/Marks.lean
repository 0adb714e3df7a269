import ResultCache.Proofs.Session.Tracks

/-!
# Marks of keys that are loading

A mark belongs to a query that is still running. Whatever a session does inside a query, its
assemblies included, leaves the session as deep in queries as it was, with no mark that was not there
before (`State.Restores`). A query puts its own mark and takes it away, so this carries over to the
query around it (`restores_answer`), and a session that is called from outside is idle between the
calls: no query is running and no key is marked (`Session.Reached.idle`).
-/
namespace ResultCache

variable {τ : Type}

namespace State

/-- What the session can have become when it is done with something: as deep in queries as before,
with what it held before and with rows. -/
structure Restores (s t : State τ) : Prop where
  config : t.session.config = s.session.config
  depth : t.session.depth = s.session.depth
  closed : s.session.closed = true → t.session.closed = true
  entries : ∀ k e, t.session.loaded.get? k = some e →
    s.session.loaded.get? k = some e ∨ ∃ vs, e = .rows vs

variable {s t u : State τ}

theorem Restores.refl (s : State τ) : s.Restores s := ⟨rfl, rfl, id, fun _ _ => .inl⟩

theorem Restores.trans (hst : s.Restores t) (htu : t.Restores u) : s.Restores u := by
  refine ⟨htu.config.trans hst.config, htu.depth.trans hst.depth,
    fun h => htu.closed (hst.closed h), fun k e he => ?_⟩
  cases htu.entries k e he with
  | inl ht => exact hst.entries k e ht
  | inr hrows => exact .inr hrows

/-- Nothing that the relation looks at has changed. -/
theorem Restores.quiet (hconfig : t.session.config = s.session.config)
    (hdepth : t.session.depth = s.session.depth) (hclosed : t.session.closed = s.session.closed)
    (hloaded : t.session.loaded = s.session.loaded) : s.Restores t := by
  refine ⟨hconfig, hdepth, fun h => hclosed.trans h, fun k e he => .inl ?_⟩
  rw [← hloaded]
  exact he

/-- No mark is new. -/
theorem Restores.loading (h : s.Restores t) {k : Key}
    (hk : t.session.loaded.get? k = some .loading) : s.session.loaded.get? k = some .loading := by
  obtain hs | ⟨vs, hvs⟩ := h.entries k _ hk
  · exact hs
  · cases hvs

theorem restores_clearLoaded (s : State τ) : s.Restores s.clearLoaded := by
  rw [clearLoaded, Session.clearLoaded]
  split
  · exact .refl s
  · refine ⟨rfl, rfl, id, fun k e he => ?_⟩
    simp at he

/-- Nothing that a session does in one go leaves a mark. -/
theorem restores_moves (D : DataSource τ) : Moves D Restores where
  refl := .refl
  trans := .trans
  clear := restores_clearLoaded
  flush st s := by
    obtain ⟨bs, hflush⟩ := s.flush_buffers st
    rw [hflush]
    exact .quiet rfl rfl rfl rfl
  defer d s := by
    obtain ⟨h, ds, hdefer⟩ := s.defer_deferred d
    rw [hdefer]
    exact .quiet rfl rfl rfl rfl
  change _ _ _ := .quiet rfl rfl rfl rfl
  source _ _ := .quiet rfl rfl rfl rfl
  commit _ := .quiet rfl rfl rfl rfl
  rollback _ := .quiet rfl rfl rfl rfl
  shut _ := ⟨rfl, rfl, fun _ => rfl, fun _ _ => .inl⟩
  drop _ := .quiet rfl rfl rfl rfl
  drain _ := .quiet rfl rfl rfl rfl

theorem restores_keepRows (k : Key) (vs : List Value) (s : State τ) :
    s.Restores (s.keepRows k vs) := by
  refine ⟨rfl, rfl, id, fun j e he => ?_⟩
  have he' : (s.session.loaded.insert k (.rows vs)).get? j = some e := he
  by_cases hj : j = k
  · subst hj
    rw [Table.get?_insert_self] at he'
    exact .inr ⟨vs, (Option.some.inj he').symm⟩
  · rw [Table.get?_insert_of_ne _ _ hj] at he'
    exact .inl he'

theorem restores_keepOutputs (q : Query) (k : Key) (s : State τ) :
    s.Restores (s.keepOutputs q k) := by
  obtain ⟨outputs, hkeep⟩ := s.keepOutputs_outputs q k
  rw [hkeep]
  exact .quiet rfl rfl rfl rfl

theorem restores_restoreOutputs (q : Query) (k : Key) (s : State τ) :
    s.Restores (s.restoreOutputs q k) := by
  obtain ⟨h, hrestore⟩ := s.restoreOutputs_heap q k
  rw [hrestore]
  exact .quiet rfl rfl rfl rfl

/-- The mark of a query goes with it, whatever happened under it. -/
theorem Restores.unmark {k : Key} (h : (s.mark k).Restores t) : s.Restores (t.unmark k) := by
  refine ⟨h.config, h.depth, h.closed, fun j e he => ?_⟩
  have he' : (t.session.loaded.erase k).get? j = some e := he
  by_cases hj : j = k
  · subst hj
    rw [Table.get?_erase_self] at he'
    cases he'
  · rw [Table.get?_erase_of_ne _ hj] at he'
    have hmarked := h.entries j e he'
    rw [mark, Table.get?_insert_of_ne _ _ hj] at hmarked
    exact hmarked

/-- A query that ends is as deep as it began. -/
theorem Restores.leave (h : s.enter.Restores t) : s.Restores t.leave := by
  have hdepth : t.session.depth = s.session.depth + 1 := h.depth
  refine ⟨h.config, ?_, h.closed, h.entries⟩
  change t.session.depth - 1 = s.session.depth
  omega

theorem restores_tracks (env : Env τ) : Tracks env (fun _ _ => True) Restores where
  refl := .refl
  trans := .trans
  confined _ _ := Assembly.confined_all _
  quick _ hc h := (restores_moves env.source).of_quick hc h
  alloc _ _ := .quiet rfl rfl rfl rfl
  write _ _ _ _ := .quiet rfl rfl rfl rfl
  note _ _ := .quiet rfl rfl rfl rfl
  source _ _ _ _ _ _ := .quiet rfl rfl rfl rfl
  flush := (restores_moves env.source).flush
  read _ _ _ := .quiet rfl rfl rfl rfl
  put _ _ _ _ := .quiet rfl rfl rfl rfl
  release _ _ _ := .quiet rfl rfl rfl rfl
  anew s _ := restores_clearLoaded s
  finish reply s _ := (restores_moves env.source).of_finish reply s
  keepRows := restores_keepRows
  keepOutputs := restores_keepOutputs
  restoreOutputs := restores_restoreOutputs
  loading h := h.unmark
  within h := h.leave

end State

/-- However a query ends, the session is as deep in queries as before, and no mark is left of what
happened inside. -/
theorem restores_answer {env : Env τ} {limit : Nat} {q : Query} {k : Key} {handled : Bool}
    {s t : State τ} {reply : Reply} (h : env.answer limit q k handled s = some (reply, t)) :
    s.Restores t :=
  (State.restores_tracks env).answer h

namespace Session

/-- A session that is new, or was called from outside. -/
inductive Reached (env : Env τ) : Session → Prop
  | new (c : Config) (walk : Buffers.Walk) : Reached env (.new c walk)
  | call {s : Session} {w : World τ} {limit : Nat} {β : Type} {c : Call β} {b : β} {t : State τ} :
    Reached env s → env.perform limit c ⟨s, w⟩ = some (b, t) → Reached env t.session

/-- No query is running. -/
structure Idle (s : Session) : Prop where
  depth : s.depth = 0
  loaded : ∀ k, s.loaded.get? k ≠ some .loading

theorem Idle.of_restores {s t : State τ} (hs : s.session.Idle) (h : s.Restores t) :
    t.session.Idle :=
  ⟨h.depth.trans hs.depth, fun k hk => hs.loaded k (h.loading hk)⟩

/-- Between calls no query is running. -/
theorem Reached.idle {env : Env τ} {s : Session} (hs : s.Reached env) : s.Idle := by
  induction hs with
  | new c walk => exact ⟨rfl, fun k => by simp [Session.new]⟩
  | call _ hcall ih => exact ih.of_restores ((State.restores_tracks env).perform trivial hcall)

/-- Between calls the session holds nothing but rows. -/
theorem Reached.rows {env : Env τ} {s : Session} (hs : s.Reached env) {k : Key} {e : Entry}
    (he : s.loaded.get? k = some e) : ∃ vs, e = .rows vs := by
  induction hs with
  | new c walk => simp [Session.new] at he
  | call _ hcall ih =>
    obtain hbefore | hrows := ((State.restores_tracks env).perform trivial hcall).entries k e he
    · exact ih hbefore
    · exact hrows

end Session

end ResultCache
