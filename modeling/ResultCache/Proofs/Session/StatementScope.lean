import ResultCache.Proofs.Session.Retrying

/-!
# Sessions that keep results for one query only

Such a session drops everything at the end of an outermost query that succeeds, so nothing is left
between the calls and no query is answered with what an earlier one left
(`statement_scope_keeps_nothing`). A query that fails inside its tree is the exception: what the
queries inside it had completed stays (`failed_statement_is_left`). Whether that may have happened is
followed from call to call (`Session.Called`).
-/
namespace ResultCache

variable {τ : Type}

section Nested

variable {H : ComponentHash} {D : DataSource τ} {ns : String → List NestedSelect} {limit : Nat}
  {q : Query} {key : Option Key} {k : Key} {handled : Bool} {s t : State τ} {reply : Reply}

/-- Whether the results of queries inside an outermost query may be left after it, where `left` says
so of what was there before: the data source returned rows for it and something failed later. -/
def Env.leaves (env : Env τ) (limit : Nat) (q : Query) (k : Key) (handled : Bool) (s : State τ)
    (left : Bool) : Bool :=
  if (s.early q k handled).isSome then left
  else
    match env.inside limit q k handled s with
    | some (⟨.error _, _⟩, _) =>
      left || (env.source.query q.statement q.binding q.param q.window
        (s.asking q k handled).heap (s.asking q k handled).world.source).1.toOption.isSome
    | _ => false

/-- A session that is new, or was called from outside. The flag says whether results of a query that
failed may be left. -/
inductive Session.Called (env : Env τ) : Bool → Session → Prop
  | new (c : Config) (walk : Buffers.Walk) : Called env false (.new c walk)
  | query {left : Bool} {limit : Nat} {q : Query} {key : Option Key} {handled : Bool}
    {reply : Reply} {s t : State τ} : Called env left s.session →
    env.perform limit (.query q key handled) s = some (reply, t) →
    Called env (env.leaves limit q (key.getD (Session.keyOf env.hash s.heap s.session.config q))
      handled s left) t.session
  | call {left : Bool} {limit : Nat} {β : Type} {c : Call β} {b : β} {s t : State τ} :
    Called env left s.session → c.isQuery = false → env.perform limit c s = some (b, t) →
    Called env (left && !c.empties) t.session

theorem Session.Called.reached {env : Env τ} {left : Bool} {s : Session} (hs : s.Called env left) :
    s.Reached env := by
  induction hs with
  | new c walk => exact .new c walk
  | query _ hperform ih => exact .call ih hperform
  | call _ _ hcall ih => exact .call ih hcall

/-- A load that the data source refuses changes nothing but the data source and the objects. -/
theorem State.load_refused {env : Env τ} {nested : Answering τ} {u : State τ}
    (h : s.load env nested q handled = some (reply, u))
    (hrefused : (env.source.query q.statement q.binding q.param q.window s.heap
      s.world.source).1.toOption.isSome = false) : u.session = s.session := by
  rw [load] at h
  generalize env.source.query q.statement q.binding q.param q.window s.heap s.world.source = x
    at h hrefused
  obtain ⟨f | rows, h', w⟩ := x
  · cases h
    rfl
  · cases hrefused

/-- A query that the data source refuses leaves an empty session empty. -/
theorem bare_of_refused {env : Env τ} {a : Reply} {u : State τ} {f : Fault}
    (hs : s.session.Bare) (h : env.inside limit q k handled s = some (a, u))
    (hf : a.result = .error f)
    (hrefused : (env.source.query q.statement q.binding q.param q.window
      (s.asking q k handled).heap (s.asking q k handled).world.source).1.toOption.isSome = false) :
    u.session.Bare := by
  cases limit with
  | zero => cases h
  | succ limit =>
    have hreaching := hs.of_own_eq (State.own_reaching q k handled s)
    have hopened : ((s.reaching q k handled).opened q).session.Bare := by
      rw [State.opened]
      split
      · exact hreaching.clearLoaded
      · exact hreaching
    -- nothing is held, so the query is loaded
    have hempty : ∀ j, ((s.reaching q k handled).opened q).enter.session.loaded.get? j = none := by
      intro j
      rw [State.enter, hopened.loaded, Table.get?_empty]
    obtain ⟨⟨b, v⟩, hlookup, hb⟩ := Option.map_eq_some_iff.1 h
    cases hb
    cases State.looked_of_lookup hlookup with
    | reentered _ hheld =>
      rw [hempty] at hheld
      cases hheld
    | held _ hheld _ =>
      rw [hempty] at hheld
      cases hheld
    | loaded _ _ hfetch =>
      obtain ⟨w, hload, rfl⟩ := State.fetch_error hfetch hf
      have hw : w.session = (s.asking q k handled).session := State.load_refused hload hrefused
      have hloaded : w.session.loaded = (Table.empty : Entries).insert k .loading := by
        rw [hw, ← hopened.loaded]
        rfl
      refine ⟨?_, ?_⟩
      · change w.session.loaded.erase k = .empty
        rw [hloaded, Table.erase_insert_empty]
      · change w.session.outputs = .empty
        rw [hw, ← hopened.outputs]
        rfl

/-- A query that ends in a session that keeps results for one query only leaves nothing, unless its
rows were returned and something failed later. -/
theorem bare_after_query {left : Bool} (hs : s.session.Idle)
    (hscope : s.session.config.scope = .statement) (hbare : left = false → s.session.Bare)
    (h : (Env.nested H D ns).perform limit (.query q key handled) s = some (reply, t))
    (hleft : (Env.nested H D ns).leaves limit q
      (key.getD (Session.keyOf H s.heap s.session.config q)) handled s left = false) :
    t.session.Bare := by
  rw [Env.leaves] at hleft
  cases hclosed : s.session.closed with
  | true =>
    have hearly : ∀ k, s.early q k handled = some (.error (.closed .session)) := by
      intro k
      rw [State.early, Session.ensureOpen, if_pos hclosed]
    rw [hearly] at hleft
    exact (hbare hleft).of_own_eq (perform_query_closed hclosed h).2
  | false =>
    have hanswer : (Env.nested H D ns).answer limit q
        (key.getD (Session.keyOf H s.heap s.session.config q)) handled s = some (reply, t) :=
      perform_query_open hclosed h
    generalize key.getD (Session.keyOf H s.heap s.session.config q) = k at hanswer hleft
    obtain ⟨r, hearly, -, hown⟩ | ⟨hearly, ⟨result, gone⟩, u, hinside, -, hown, -⟩ :=
      outermost_cases hs hanswer
    · rw [hearly] at hleft
      exact (hbare hleft).of_own_eq hown
    · rw [hearly, hinside] at hleft
      cases result with
      | error f =>
        obtain ⟨hnone, hrefused⟩ := Bool.or_eq_false_iff.1 hleft
        have hu := bare_of_refused (hbare hnone) hinside rfl hrefused
        have hend : ({ u.session with deferred := [] } : Session).Bare := ⟨hu.loaded, hu.outputs⟩
        rw [State.finish_error rfl] at hown
        exact hend.of_own_eq hown
      | ok vs =>
        have hopen : u.session.closed = false :=
          ((State.closed_tracks H D ns).envInside hinside).trans hclosed
        have hu : u.session.config.scope = .statement := by
          rw [((State.restores_tracks _).envInside hinside).config, hscope]
        exact (State.bare_finish rfl hu hopen).of_own_eq hown

/-- In a session that keeps results for one query only, nothing is left between the calls, unless a
query failed after the data source returned its rows, and nothing emptied the session since. -/
theorem Session.Called.bare {left : Bool} {s : Session} (hs : s.Called (.nested H D ns) left)
    (hscope : s.config.scope = .statement) (hleft : left = false) : s.Bare := by
  induction hs with
  | new c => exact ⟨rfl, rfl⟩
  | query hs hperform ih =>
    have hrestores := (State.restores_tracks _).perform trivial hperform
    rw [hrestores.config] at hscope
    exact bare_after_query hs.reached.idle hscope (ih hscope) hperform hleft
  | @call left limit β c b s t hs hquery hcall ih =>
    have hrestores := (State.restores_tracks _).perform trivial hcall
    rw [hrestores.config] at hscope
    cases hclosed : s.session.closed with
    | true => exact (hs.reached.bare hclosed).of_own_eq (State.own_of_closed hclosed hquery hcall)
    | false =>
      cases hempties : c.empties with
      | true => exact State.bare_of_empties hempties hclosed hcall
      | false =>
        rw [hempties, Bool.not_false, Bool.and_true] at hleft
        have hbare := ih hscope hleft
        obtain ⟨hloaded, houtputs, -⟩ := State.kept_of_quick hempties hquery hcall
        exact ⟨hloaded.trans hbare.loaded, houtputs.trans hbare.outputs⟩

/-- So with that exception an outermost query leaves nothing in such a session, and no later query is
answered from what an earlier one left. -/
theorem statement_scope_keeps_nothing {left : Bool} {s : Session}
    (hs : s.Called (.nested H D ns) left) (hscope : s.config.scope = .statement)
    (hleft : left = false) :
    (s.loaded = .empty ∧ s.outputs = .empty) ∧ ∀ q k, s.Retries (.nested H D ns) q k := by
  have hbare := hs.bare hscope hleft
  refine ⟨⟨hbare.loaded, hbare.outputs⟩, fun q k => Session.retries ?_⟩
  rw [hbare.loaded, Table.get?_empty]

end Nested

/-- An author has a book, which has its writer, and a shelf. -/
def readingSelects : String → List NestedSelect
  | "A.author" => [⟨"book", "id", bookQuery, .single⟩, ⟨"shelf", "id", shelfQuery, .list⟩]
  | "B.book" => [⟨"writer", "author", authorQuery, .single⟩]
  | _ => []

/-- A library whose data source refuses some queries. -/
def readingRoom (calls : List Nat) : Env Nat :=
  .nested flatHash (.refusing (.ofRows libraryRows .empty) calls) readingSelects

def briefConfig : Session.Config := { Session.Config.standard with scope := .statement }

def bookKey : Key := Session.keyOf flatHash .empty .standard (askOne bookQuery)

/-- A query that succeeds leaves nothing. -/
theorem statement_scope_keeps_nothing_readingRoom :
    ∃ reply t, (readingRoom []).perform 2 (.query (askOne authorQuery) none false)
        (countedState briefConfig) = some (reply, t) ∧
      (t.session.loaded = .empty ∧ t.session.outputs = .empty) ∧
      ∀ q k, t.session.Retries (readingRoom []) q k := by
  have hrun : ((readingRoom []).perform 2 (.query (askOne authorQuery) none false)
      (countedState briefConfig)).isSome := by cbv
  have hleaves : (readingRoom []).leaves 2 (askOne authorQuery)
      (Session.keyOf flatHash .empty briefConfig (askOne authorQuery)) false
      (countedState briefConfig) false = false := by cbv
  obtain ⟨⟨reply, t⟩, hperform⟩ := Option.isSome_iff_exists.1 hrun
  have hcalled : t.session.Called (readingRoom []) _ :=
    .query (s := countedState briefConfig) (.new briefConfig .insertion) hperform
  have hscope : t.session.config.scope = .statement := by
    rw [((State.restores_tracks _).perform trivial hperform).config]
    rfl
  exact ⟨reply, t, hperform, statement_scope_keeps_nothing hcalled hscope hleaves⟩

/-- The book of the author is loaded and the shelf is refused. The author fails, and the book is
answered with what that left. -/
theorem failed_statement_is_left :
    (readingRoom [3]).ServesAfter 2 (askOne authorQuery) (askOne bookQuery) bookKey
      (countedState briefConfig) := by
  have hrun : (((readingRoom [3]).perform 2 (.query (askOne authorQuery) none false)
      (countedState briefConfig)).bind fun p =>
      ((readingRoom [3]).perform 2 (.query (askOne bookQuery) none false) p.2).map fun p' =>
        ((p.1, p.2.session.loaded.get? bookKey, p.2.world.source), (p'.1, p'.2.world.source))) =
      some ((.ofResult (.error (.execution (.reported "refused"))), some (.rows [.object ⟨1⟩]), 3),
        (.ofResult (.ok [.object ⟨1⟩]), 3)) := by cbv
  exact Env.servesAfter hrun

end ResultCache
