import ResultCache.Proofs.Session.Accounting
import ResultCache.Proofs.Session.StatementScope

/-!
# What a failed query leaves unfinished

When an outermost query ends, the properties that wait are set, and those that are not set are lost
(`Session.Deferred.unset`). So between calls every object of a kept result has every nested property
of its statement but those that were lost (`nothing_else_half_built`), and only a query that fails, or
that hands its rows over, loses any. A query that fails inside its tree loses all that waits
(`waiting_writer_is_lost`).
-/
namespace ResultCache

variable {τ : Type}

namespace Session.Deferred

/-- The properties that are not set when properties are set in order: those without a completed
result, and those from the first fault on. -/
def unset (loaded : Entries) : List Session.Deferred → Heap → List Session.Deferred
  | [], _ => []
  | d :: ds, h =>
    match (loaded.get? d.key).bind Entry.results? with
    | none => d :: unset loaded ds h
    | some _ =>
      match d.load loaded h with
      | (.ok (), h) => unset loaded ds h
      | (.error _, _) => d :: ds

theorem load_of_missing {d : Session.Deferred} {loaded : Entries} {h : Heap}
    (hmissing : (loaded.get? d.key).bind Entry.results? = none) : d.load loaded h = (.ok (), h) := by
  rw [load, hmissing]

/-- What waits is set in the end, unless it is among the unset. -/
theorem has_loadAll {loaded : Entries} {ds : List Session.Deferred} {h : Heap} {d : Session.Deferred}
    (hd : d ∈ ds) (ho : (h.record? d.object).isSome) :
    (loadAll loaded ds h).2.Has d.object d.property ∨ d ∈ unset loaded ds h := by
  induction ds generalizing h with
  | nil => cases hd
  | cons e ds ih =>
    rw [loadAll, unset]
    cases hresults : (loaded.get? e.key).bind Entry.results? with
    | none =>
      -- setting a property without a result does nothing, and is no fault
      rw [load_of_missing hresults]
      obtain rfl | hd := List.mem_cons.1 hd
      · exact .inr List.mem_cons_self
      · exact (ih hd ho).imp_right (List.mem_cons_of_mem _)
    | some vs =>
      have hkeeps := e.keeps_load loaded h
      cases hload : e.load loaded h with
      | mk r i =>
        rw [hload] at hkeeps
        cases r with
        | error f => exact .inr hd
        | ok u =>
          obtain rfl | hd := List.mem_cons.1 hd
          · have hhas := has_load ho hresults hload
            exact .inl ((keeps_loadAll loaded ds i).has _ _ hhas)
          · exact ih hd (hkeeps.exist _ ho)

/-- If nothing fails, only properties without a completed result are left unset. -/
theorem mem_unset {loaded : Entries} {ds : List Session.Deferred} {h : Heap} {d : Session.Deferred}
    (hok : (loadAll loaded ds h).1 = .ok ()) (hd : d ∈ unset loaded ds h) :
    d ∈ ds ∧ (loaded.get? d.key).bind Entry.results? = none := by
  induction ds generalizing h with
  | nil => cases hd
  | cons e ds ih =>
    rw [loadAll] at hok
    rw [unset] at hd
    cases hresults : (loaded.get? e.key).bind Entry.results? with
    | none =>
      rw [load_of_missing hresults] at hok
      rw [hresults] at hd
      obtain rfl | hd := List.mem_cons.1 hd
      · exact ⟨List.mem_cons_self, hresults⟩
      · exact (ih hok hd).imp_left (List.mem_cons_of_mem _)
    | some vs =>
      rw [hresults] at hd
      cases hload : e.load loaded h with
      | mk r i =>
        rw [hload] at hok hd
        cases r with
        | error f => cases hok
        | ok u => exact (ih hok hd).imp_left (List.mem_cons_of_mem _)

end Session.Deferred

open Session.Deferred (Fill)
open State

/-- The properties that wait and are not set when an outermost query ends. -/
def Env.dropped (env : Env τ) (limit : Nat) (q : Query) (k : Key) (handled : Bool) (s : State τ) :
    List Session.Deferred :=
  if (s.early q k handled).isSome then []
  else
    match env.inside limit q k handled s with
    | some (⟨.error _, _⟩, u) => u.session.deferred
    | some (⟨.ok _, _⟩, u) => Session.Deferred.unset u.session.loaded u.session.deferred u.heap
    | none => []

/-- A session that is new, or was called from outside with keys that belong to the statements, in a
world where objects keep their properties. The list has the properties that were not set when
queries ended. -/
inductive State.Lives (env : Env τ) : List Session.Deferred → State τ → Prop
  | new (c : Session.Config) (walk : Buffers.Walk) (w : World τ) : Lives env [] ⟨.new c walk, w⟩
  | query {lost : List Session.Deferred} {limit : Nat} {q : Query} {key : Option Key}
    {handled : Bool} {reply : Reply} {s t : State τ} : Lives env lost s →
    (∀ k, key = some k → k.Names q.statement.id) →
    env.perform limit (.query q key handled) s = some (reply, t) →
    Lives env (env.dropped limit q (key.getD (Session.keyOf env.hash s.heap s.session.config q))
      handled s ++ lost) t
  | call {lost : List Session.Deferred} {limit : Nat} {β : Type} {c : Call β} {b : β}
    {s t : State τ} : Lives env lost s → c.isQuery = false → env.perform limit c s = some (b, t) →
    Lives env lost t
  | world {lost : List Session.Deferred} {s : State τ} {w : World τ} : Lives env lost s →
    s.heap.Keeps w.heap → Lives env lost ⟨s.session, w⟩

/-- Between calls every nested property of a kept result is there or was lost. -/
def State.Finished (ns : String → List NestedSelect) (lost : List Session.Deferred)
    (s : State τ) : Prop :=
  s.Whole ns fun o name => s.heap.Has o name ∨ Fill lost o name

section Runs

variable {H : ComponentHash} {D : DataSource τ} {ns : String → List NestedSelect}
  {lost : List Session.Deferred} {limit : Nat} {handled : Bool} {q : Query} {key : Option Key}
  {k : Key} {s t u : State τ} {reply a : Reply}

theorem State.Lives.reached {env : Env τ} (hs : s.Lives env lost) : s.session.Reached env := by
  induction hs with
  | new c walk w => exact .new c walk
  | query _ _ hperform ih => exact .call ih hperform
  | call _ _ hcall ih => exact .call ih hcall
  | world _ _ ih => exact ih

theorem State.Finished.sound (hs : s.Finished ns lost)
    (hplain : ∀ k e, s.session.loaded.get? k = some e → ∃ vs, e = .rows vs) : s.Sound ns lost := by
  constructor
  · intro k vs id hk hid o ho
    obtain ⟨hexists, hprops⟩ := hs k vs id hk hid o ho
    refine ⟨hexists, fun n hn => (hprops n hn).imp_right fun ⟨d, hd, hfills⟩ => ?_⟩
    exact ⟨d, List.mem_append_right _ hd, hfills⟩
  · intro k e he
    exact .inr (hplain k e he)

/-- With the same objects and no more results, what is finished stays so. -/
theorem State.Finished.mono {lost' : List Session.Deferred} (hs : s.Finished ns lost)
    (hheap : s.heap.Keeps t.heap) (hlost : ∀ d ∈ lost, d ∈ lost')
    (hloaded : ∀ k e, t.session.loaded.get? k = some e → s.session.loaded.get? k = some e) :
    t.Finished ns lost' := by
  intro k vs id hk hid o ho
  obtain ⟨hexists, hprops⟩ := hs k vs id (hloaded k _ hk) hid o ho
  refine ⟨hheap.exist o hexists, fun n hn => ?_⟩
  obtain hhas | ⟨d, hd, hfills⟩ := hprops n hn
  · exact .inl (hheap.has o n.property hhas)
  · exact .inr ⟨d, hlost d hd, hfills⟩

/-- What becomes of the properties that wait when the outermost query ends. -/
theorem accounts_finish (hD : D.Keeps) {o : ObjId} {name : String}
    (ho : (u.heap.record? o).isSome) (h : u.Accounts lost o name)
    (hearly : s.early q k handled = none)
    (hinside : (Env.nested H D ns).inside limit q k handled s = some (a, u)) :
    (u.finish a).2.heap.Has o name ∨
      Fill ((Env.nested H D ns).dropped limit q k handled s ++ lost) o name := by
  rw [Env.dropped, hearly, hinside]
  obtain ⟨result, gone⟩ := a
  obtain hhas | ⟨d, hd, rfl, rfl⟩ := h
  · exact .inl (((keeps_moves hD).of_finish _ u).has o name hhas)
  · cases result with
    | error f => exact .inr ⟨d, hd, rfl, rfl⟩
    | ok vs =>
      have hheap : (u.finish ⟨.ok vs, gone⟩).2.heap =
          (Session.Deferred.loadAll u.session.loaded u.session.deferred u.heap).2 := by
        rw [finish_ok rfl]
        split <;> rfl
      obtain hd | hd := List.mem_append.1 hd
      · rw [hheap]
        refine (Session.Deferred.has_loadAll hd ho).imp_right fun hunset => ?_
        exact ⟨d, List.mem_append_left _ hunset, rfl, rfl⟩
      · exact .inr ⟨d, List.mem_append_right _ hd, rfl, rfl⟩

/-- The queries inside an outermost query account for every nested property. -/
theorem builds_envInside (hD : D.Keeps) (hk : k.Names q.statement.id) (hs : s.Sound ns lost)
    (h : (Env.nested H D ns).inside limit q k handled s = some (a, u)) :
    Builds ns lost handled ((s.reaching q k handled).opened q) a.result u := by
  cases limit with
  | zero => cases h
  | succ limit =>
    have hreach : s.Undisturbed (s.reaching q k handled) :=
      .of_own ((keeps_nested H hD ns).reaching q k handled s)
        (own_reaching q k handled s)
    refine builds_inside hD (sound_answer hD limit) hk ?_ h
    exact sound_opened (hs.of_undisturbed hreach)

/-- An outermost query keeps what is finished so, but for what it drops. -/
theorem finished_query (hD : D.Keeps) (hidle : s.session.Idle)
    (hplain : ∀ k e, s.session.loaded.get? k = some e → ∃ vs, e = .rows vs)
    (hs : s.Finished ns lost) (hk : k.Names q.statement.id)
    (h : (Env.nested H D ns).answer limit q k handled s = some (reply, t)) :
    t.Finished ns ((Env.nested H D ns).dropped limit q k handled s ++ lost) := by
  have hheap : s.heap.Keeps t.heap := (keeps_nested H hD ns).answer h
  obtain ⟨r, -, -, hown⟩ | ⟨hearly, a, u, hinside, -, hown, hheap'⟩ := outermost_cases hidle h
  · have ht := Undisturbed.of_own hheap hown
    refine hs.mono hheap (fun d hd => List.mem_append_right _ hd) fun j e he => ?_
    rwa [← ht.loaded]
  · have hu := builds_envInside hD hk (hs.sound hplain) hinside
    have hloaded : t.session.loaded = (u.finish a).2.session.loaded := by
      rw [Session.eq_of_own_eq hown]
    intro j vs id hj hid o ho
    have hj' : u.session.loaded.get? j = some (.rows vs) := get?_finish (hloaded ▸ hj)
    obtain ⟨hexists, hprops⟩ := hu.sound.whole j vs id hj' hid o ho
    rw [hheap']
    refine ⟨((keeps_moves hD).of_finish a u).exist o hexists, fun n hn => ?_⟩
    exact accounts_finish hD hexists (hprops n hn) hearly hinside

/-- A call that is no query keeps no more results. -/
theorem get?_of_quick {env : Env τ} {β : Type} {c : Call β} {b : β} (hc : c.isQuery = false)
    (h : env.perform limit c s = some (b, t)) {e : Entry}
    (he : t.session.loaded.get? k = some e) : s.session.loaded.get? k = some e := by
  cases hclosed : s.session.closed with
  | true =>
    rw [Session.eq_of_own_eq (own_of_closed hclosed hc h)] at he
    exact he
  | false =>
    cases hempties : c.empties with
    | true =>
      rw [(bare_of_empties hempties hclosed h).loaded, Table.get?_empty] at he
      cases he
    | false =>
      rw [(kept_of_quick hempties hc h).1] at he
      exact he

/-- The key that a query runs under belongs to its statement if a given one does. -/
theorem names_key (hkey : ∀ k, key = some k → k.Names q.statement.id) (h : Heap)
    (c : Session.Config) : (key.getD (Session.keyOf H h c q)).Names q.statement.id := by
  cases key with
  | some k => exact hkey k rfl
  | none => exact Query.head?_components_keyOf H h c q

theorem State.Lives.finished (hD : D.Keeps) (hs : s.Lives (.nested H D ns) lost) :
    s.Finished ns lost := by
  induction hs with
  | new c w =>
    intro k vs id hk
    cases hk
  | @query lost limit q key handled reply s t hs hkey hperform ih =>
    cases hclosed : s.session.closed with
    | true =>
      have hown := (perform_query_closed hclosed hperform).2
      have hheap : s.heap.Keeps t.heap :=
        (keeps_nested H hD ns).perform trivial hperform
      refine ih.mono hheap (fun d hd => List.mem_append_right _ hd) fun j e he => ?_
      rw [Session.eq_of_own_eq hown] at he
      exact he
    | false =>
      have hanswer := perform_query_open hclosed hperform
      exact finished_query hD hs.reached.idle (fun k e => hs.reached.rows) ih
        (names_key hkey _ _) hanswer
  | @call lost limit β c b s t hs hquery hcall ih =>
    have hheap : s.heap.Keeps t.heap :=
      (keeps_nested H hD ns).perform trivial hcall
    exact ih.mono hheap (fun _ => id) fun j e he => get?_of_quick hquery hcall he
  | world _ hheap ih => exact ih.mono hheap (fun _ => id) fun _ _ => id

/-- A query that succeeds and does not hand its rows over drops only what waited before it. -/
theorem dropped_of_ok (hD : D.Keeps) (hs : s.Lives (.nested H D ns) lost)
    (hk : k.Names q.statement.id) {vs : List Value}
    (h : (Env.nested H D ns).answer limit q k false s = some (reply, t))
    (hvs : reply.result = .ok vs) :
    ∀ d ∈ (Env.nested H D ns).dropped limit q k false s, d ∈ s.session.deferred := by
  intro d hd
  obtain ⟨r, hearly, -, -⟩ | ⟨hearly, a, u, hinside, rfl, -, -⟩ :=
    outermost_cases hs.reached.idle h
  · rw [Env.dropped, hearly] at hd
    cases hd
  · have hu := builds_envInside hD hk ((hs.finished hD).sound fun k e => hs.reached.rows) hinside
    have hrestores : s.Restores u := (restores_tracks _).envInside hinside
    obtain ⟨hresult, hdrain⟩ := result_finish hvs
    rw [Env.dropped, hearly, hinside] at hd
    obtain ⟨result, gone⟩ := a
    cases result with
    | error f =>
      cases hresult
    | ok ws =>
      obtain ⟨hwaits, hmissing⟩ := Session.Deferred.mem_unset hdrain hd
      obtain hbefore | hheld := (hu.lasts rfl ws rfl).waits d hwaits
      · rw [deferred_opened, Session.eq_of_own_eq (own_reaching q k false s)] at hbefore
        exact hbefore
      · obtain ⟨e, he⟩ := Option.isSome_iff_exists.1 hheld
        rw [he] at hmissing
        obtain rfl | ⟨vs, rfl⟩ := hu.sound.plain d.key e he
        · exact absurd (hrestores.loading he) (hs.reached.idle.loaded d.key)
        · cases hmissing

/-- The rows of a query that the session itself answered have every nested property, but for those
that were lost. -/
theorem accounts_answer (hD : D.Keeps) (hs : s.Lives (.nested H D ns) lost)
    (hk : k.Names q.statement.id) {vs : List Value}
    (h : (Env.nested H D ns).answer limit q k false s = some (reply, t))
    (hvs : reply.result = .ok vs) (hearly : s.early q k false = none) {o : ObjId}
    (ho : .object o ∈ vs) {n : NestedSelect} (hn : n ∈ ns q.statement.id) :
    t.heap.Has o n.property ∨
      Fill ((Env.nested H D ns).dropped limit q k false s ++ lost) o n.property := by
  obtain ⟨r, hsome, -, -⟩ | ⟨-, a, u, hinside, rfl, -, hheap⟩ := outermost_cases hs.reached.idle h
  · rw [hearly] at hsome
    cases hsome
  · have hu := builds_envInside hD hk ((hs.finished hD).sound fun k e => hs.reached.rows) hinside
    obtain ⟨ha, -⟩ := result_finish hvs
    obtain ⟨hhandled, -⟩ | ⟨-, hkept⟩ := inside_ok hs.reached hinside ha
    · cases hhandled
    · obtain ⟨hexists, hprops⟩ := hu.sound.whole k vs _ hkept hk o ho
      rw [hheap]
      exact accounts_finish hD hexists (hprops n hn) hearly hinside

/-- Between calls every object of a kept result has every nested property of its statement, but for
those that waited when a query ended and were not set. A query that succeeds and does not hand its
rows over adds nothing to these, but what waited before it; and the rows that the session answers it
with have every nested property but these. -/
theorem nothing_else_half_built (hD : D.Keeps) (hs : s.Lives (.nested H D ns) lost) :
    (∀ k vs id, s.session.loaded.get? k = some (.rows vs) → k.Names id → ∀ o, .object o ∈ vs →
      ∀ n ∈ ns id, s.heap.Has o n.property ∨ Fill lost o n.property) ∧
    ∀ limit q key reply t vs, (∀ k, key = some k → k.Names q.statement.id) →
      (Env.nested H D ns).perform limit (.query q key false) s = some (reply, t) →
      reply.result = .ok vs →
      let k := key.getD (Session.keyOf H s.heap s.session.config q)
      let dropped := (Env.nested H D ns).dropped limit q k false s
      (∀ d ∈ dropped, d ∈ s.session.deferred) ∧
      (s.early q k false = none → ∀ o, .object o ∈ vs → ∀ n ∈ ns q.statement.id,
        t.heap.Has o n.property ∨ Fill (dropped ++ lost) o n.property) := by
  constructor
  · intro k vs id hk hid o ho n hn
    obtain ⟨-, hprops⟩ := hs.finished hD k vs id hk hid o ho
    exact hprops n hn
  · intro limit q key reply t vs hkey hperform hvs k dropped
    have hopen : s.session.closed = false := by
      cases hclosed : s.session.closed with
      | false => rfl
      | true =>
        rw [(perform_query_closed hclosed hperform).1] at hvs
        cases hvs
    have hanswer := perform_query_open hopen hperform
    have hk : k.Names q.statement.id := names_key hkey s.heap s.session.config
    refine ⟨dropped_of_ok hD hs hk hanswer hvs, fun hearly o ho n hn => ?_⟩
    exact accounts_answer hD hs hk hanswer hvs hearly ho hn

end Runs

theorem DataSource.keeps_ofRows (rows : String → List Frozen → List Record) (outputs : Record) :
    (DataSource.ofRows rows outputs).Keeps where
  query st b param w h t := by
    dsimp only [ofRows]
    split
    · exact h.keeps_foldl_write _ _ _
    · exact .refl h
  update _ _ _ h _ := .refl h

theorem DataSource.keeps_refusing {D : DataSource Unit} (hD : D.Keeps) (calls : List Nat) :
    (D.refusing calls).Keeps where
  query st b param w h n := by
    rw [refusing]
    dsimp only
    split
    · exact .refl h
    · exact hD.query st b param w h ()
  update st b param h n := hD.update st b param h ()

/-- Nested properties of a statement have names of their own, and none is a column. -/
theorem readingSelects_apart (id : String) : ((readingSelects id).map (·.property)).Nodup ∧
    ∀ n ∈ readingSelects id, ∀ fs, ∀ r ∈ libraryRows id fs, r.get? n.property = none := by
  rw [readingSelects.eq_def]
  split
  · refine ⟨by decide, fun n hn fs r hr => ?_⟩
    obtain rfl := List.mem_singleton.1 hr
    revert n
    decide
  · refine ⟨by decide, fun n hn fs r hr => ?_⟩
    obtain rfl := List.mem_singleton.1 hr
    revert n
    decide
  · exact ⟨List.nodup_nil, fun n hn => nomatch hn⟩

/-- Where nothing is refused, the book has its writer. -/
theorem nothing_else_half_built_readingRoom :
    ∃ reply t, (readingRoom []).perform 2 (.query (askOne authorQuery) none false)
        (countedState .standard) = some (reply, t) ∧
      t.session.loaded.get? bookKey = some (.rows [.object ⟨1⟩]) ∧ t.heap.Has ⟨1⟩ "writer" := by
  have hrun : ((readingRoom []).perform 2 (.query (askOne authorQuery) none false)
      (countedState .standard)).map (fun p => p.2.session.loaded.get? bookKey) =
        some (some (.rows [.object ⟨1⟩])) := by cbv
  have hdropped : (readingRoom []).dropped 2 (askOne authorQuery)
      (Session.keyOf flatHash .empty .standard (askOne authorQuery)) false
      (countedState .standard) = [] := by cbv
  obtain ⟨⟨reply, t⟩, hperform, hheld⟩ := Option.map_eq_some_iff.1 hrun
  have hkey : ∀ k, (none : Option Key) = some k → k.Names "A.author" := by
    intro k hk
    cases hk
  have hlives : t.Lives (readingRoom []) ((readingRoom []).dropped 2 (askOne authorQuery)
      (Session.keyOf flatHash .empty .standard (askOne authorQuery)) false
      (countedState .standard) ++ []) :=
    .query (.new .standard .insertion (countedState .standard).world) hkey hperform
  rw [hdropped] at hlives
  obtain ⟨hbuilt, -⟩ := nothing_else_half_built
    (DataSource.keeps_refusing (DataSource.keeps_ofRows libraryRows .empty) []) hlives
  have hnames : bookKey.Names "B.book" :=
    Query.head?_components_keyOf flatHash .empty .standard (askOne bookQuery)
  refine ⟨reply, t, hperform, hheld, ?_⟩
  obtain hhas | ⟨d, hd, -⟩ := hbuilt bookKey _ "B.book" hheld hnames ⟨1⟩ List.mem_cons_self
    ⟨"writer", "author", authorQuery, .single⟩ List.mem_cons_self
  · exact hhas
  · cases hd

/-- The book waits for its writer when the shelf is refused. The author fails, and the book is
answered without a writer. -/
theorem waiting_writer_is_lost :
    (∀ id, ((readingSelects id).map (·.property)).Nodup ∧
      ∀ n ∈ readingSelects id, ∀ fs, ∀ r ∈ libraryRows id fs, r.get? n.property = none) ∧
    ∃ f t u, (readingRoom [3]).perform 2 (.query (askOne authorQuery) none false)
        (countedState .standard) = some (.ofResult (.error f), t) ∧
      t.session.loaded.get? bookKey = some (.rows [.object ⟨1⟩]) ∧
      (readingRoom [3]).perform 2 (.query (askOne bookQuery) none false) t =
        some (.ofResult (.ok [.object ⟨1⟩]), u) ∧
      ∃ n ∈ readingSelects "B.book", ¬ u.heap.Has ⟨1⟩ n.property := by
  refine ⟨readingSelects_apart, ?_⟩
  have hrun : (((readingRoom [3]).perform 2 (.query (askOne authorQuery) none false)
      (countedState .standard)).bind fun p =>
      ((readingRoom [3]).perform 2 (.query (askOne bookQuery) none false) p.2).map fun p' =>
        ((p.1, p.2.session.loaded.get? bookKey), (p'.1, p'.2.heap.read ⟨1⟩ "writer"))) =
      some ((.ofResult (.error (.execution (.reported "refused"))), some (.rows [.object ⟨1⟩])),
        (.ofResult (.ok [.object ⟨1⟩]), none)) := by cbv
  obtain ⟨⟨reply, t⟩, hperform, hrest⟩ := Option.bind_eq_some_iff.1 hrun
  obtain ⟨⟨again, u⟩, hagain, hp⟩ := Option.map_eq_some_iff.1 hrest
  simp only [Prod.mk.injEq] at hp
  obtain ⟨⟨rfl, hheld⟩, rfl, hread⟩ := hp
  refine ⟨_, t, u, hperform, hheld, hagain, _, List.mem_cons_self, ?_⟩
  rw [Heap.Has, hread]
  decide

end ResultCache
