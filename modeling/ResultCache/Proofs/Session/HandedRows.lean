import ResultCache.Proofs.Session.Accounting
import ResultCache.Proofs.Session.Retrying

/-!
# Rows handed over and rows returned

A query whose rows are handed over one by one does the same as one that returns its rows, up to where
the rows would be kept: the same rows are loaded, the same queries run inside, and the same properties
wait. Since the rows are handed over, the session holds nothing for the key of the query; so the
properties that wait for this very key, which lead back to the outermost rows, are skipped in the end
and stay as they are. Everything else is set alike (`handed_rows_agree`).
-/
namespace ResultCache

/-- An object that does not exist has no properties. -/
theorem Heap.read_of_size_le {h : Heap} {o : ObjId} (ho : h.size ≤ o.index) (name : String) :
    h.read o name = none := by
  have hnone : h.record? o = none := by
    rw [← Option.not_isSome_iff_eq_none, record?_isSome_iff]
    exact Nat.not_lt.2 ho
  rw [read, hnone]
  rfl

/-- The heaps have the same objects, which differ at most in the properties of `W`. -/
structure Heap.AgreeBut (W : ObjId → String → Prop) (h h' : Heap) : Prop where
  size : h'.size = h.size
  read : ∀ o name, ¬ W o name → h'.read o name = h.read o name

namespace Heap.AgreeBut

variable {W : ObjId → String → Prop} {h h' : Heap}

theorem refl (W : ObjId → String → Prop) (h : Heap) : AgreeBut W h h := ⟨rfl, fun _ _ _ => rfl⟩

/-- Both heaps are changed alike. -/
theorem write (hh : AgreeBut W h h') (o : ObjId) (name : String) (v : Value) :
    AgreeBut W (h.write o name v) (h'.write o name v) := by
  refine ⟨by simp [hh.size], fun p other hp => ?_⟩
  by_cases hsame : p = o ∧ other = name
  · obtain ⟨rfl, rfl⟩ := hsame
    rcases Nat.lt_or_ge p.index h.size with hlt | hle
    · rw [read_write_self hlt, read_write_self (hh.size ▸ hlt)]
    · have hle' : h'.size ≤ p.index := hh.size ▸ hle
      rw [read_of_size_le (by simpa using hle'), read_of_size_le (by simpa using hle)]
  · rw [read_write_of v hsame, read_write_of v hsame]
    exact hh.read p other hp

/-- Only one heap is changed, in a property of `W`. -/
theorem write_left (hh : AgreeBut W h h') {o : ObjId} {name : String} (hW : W o name) (v : Value) :
    AgreeBut W (h.write o name v) h' := by
  refine ⟨by simp [hh.size], fun p other hp => ?_⟩
  have hne : ¬ (p = o ∧ other = name) := by
    rintro ⟨rfl, rfl⟩
    exact hp hW
  rw [read_write_of v hne]
  exact hh.read p other hp

end Heap.AgreeBut

namespace Session.Deferred

variable {L L' : Entries} {k : Key} {d : Session.Deferred} {ds : List Session.Deferred}
  {W : ObjId → String → Prop} {g h h' : Heap}

/-- The properties that wait for a key. -/
def waitingFor (k : Key) (ds : List Session.Deferred) : List Session.Deferred :=
  ds.filter (·.key = k)

/-- Where only the results for one key are missing, only a property that waits for it is left
out. -/
theorem load_agree (hL : ∀ j, j ≠ k → L'.get? j = L.get? j) (hk : L'.get? k = none)
    (hW : d.key = k → W d.object d.property) (hh : h.AgreeBut W h')
    (hok : (d.load L h).1 = .ok ()) :
    (d.load L' h').1 = .ok () ∧ (d.load L h).2.AgreeBut W (d.load L' h').2 := by
  by_cases hd : d.key = k
  · have hskip : d.load L' h' = (.ok (), h') := by
      rw [load, hd, hk]
      rfl
    rw [hskip]
    refine ⟨rfl, ?_⟩
    rw [load]
    split
    · exact hh
    · split
      · exact hh.write_left (hW hd) _
      · exact hh
  · rw [load] at hok ⊢
    rw [load, hL d.key hd]
    split
    · exact ⟨rfl, hh⟩
    · rename_i rows hrows
      rw [hrows] at hok
      dsimp only at hok ⊢
      cases hv : d.target.extract rows with
      | ok v => exact ⟨rfl, hh.write d.object d.property v⟩
      | error f =>
        rw [hv] at hok
        cases hok

theorem loadAll_cons (hd : (d.load L h).1 = .ok ()) :
    loadAll L (d :: ds) h = loadAll L ds (d.load L h).2 := by
  rw [loadAll]
  generalize d.load L h = x at hd
  obtain ⟨_, g⟩ := x
  cases hd
  rfl

/-- If all properties can be set, the first one can. -/
theorem load_ok_of_loadAll (h : (loadAll L (d :: ds) g).1 = .ok ()) : (d.load L g).1 = .ok () := by
  rw [loadAll] at h
  generalize d.load L g = x at h
  obtain ⟨_ | ⟨⟩, g'⟩ := x
  · cases h
  · rfl

/-- And so if all properties can be set, all that do not wait for this key still can. -/
theorem loadAll_agree (hL : ∀ j, j ≠ k → L'.get? j = L.get? j) (hk : L'.get? k = none)
    (hW : ∀ d ∈ ds, d.key = k → W d.object d.property) (hh : h.AgreeBut W h')
    (hok : (loadAll L ds h).1 = .ok ()) :
    (loadAll L' ds h').1 = .ok () ∧ (loadAll L ds h).2.AgreeBut W (loadAll L' ds h').2 := by
  induction ds generalizing h h' with
  | nil => exact ⟨rfl, hh⟩
  | cons d ds ih =>
    have hd := load_ok_of_loadAll hok
    obtain ⟨hd', hstep⟩ := load_agree hL hk (hW d List.mem_cons_self) hh hd
    rw [loadAll_cons hd] at hok
    rw [loadAll_cons hd, loadAll_cons hd']
    exact ih (fun e he => hW e (List.mem_cons_of_mem _ he)) hstep hok

/-- Where the results that are waited for are the same, the same is set. -/
theorem loadAll_congr (hL : ∀ d ∈ ds, L'.get? d.key = L.get? d.key) (h : Heap) :
    loadAll L' ds h = loadAll L ds h := by
  induction ds generalizing h with
  | nil => rfl
  | cons d ds ih =>
    have hd : d.load L' h = d.load L h := by rw [load, load, hL d List.mem_cons_self]
    rw [loadAll, loadAll, hd]
    split
    · exact ih (fun e he => hL e (List.mem_cons_of_mem _ he)) _
    · rfl

end Session.Deferred

variable {τ : Type}

open Session.Deferred (Fill waitingFor loadAll)

namespace State

variable {env : Env τ} {nested : Answering τ} {q : Query} {k : Key} {s t : State τ}
  {reply : Reply} {vs : List Value}

/-- The same is loaded whether the rows are returned or handed over. -/
theorem load_handed (h : s.load env nested q false = some (reply, t))
    (hvs : reply.result = .ok vs) :
    s.load env nested q true = some (⟨.ok [], vs⟩, t) := by
  rw [load] at h ⊢
  generalize env.source.query q.statement q.binding q.param q.window s.heap s.world.source = x at h ⊢
  obtain ⟨f | rows, h', w⟩ := x
  · cases h
    cases hvs
  · obtain ⟨⟨r, u⟩, hrun, hreply⟩ := Option.map_eq_some_iff.1 h
    dsimp only at hrun ⊢
    rw [hrun]
    cases r with
    | error f =>
      cases hreply
      cases hvs
    | ok ws =>
      cases hreply
      cases hvs
      rfl

/-- What was loaded is kept only if it is returned. -/
theorem fetch_handed (h : s.fetch env nested q k false = some (reply, t))
    (hvs : reply.result = .ok vs) :
    ∃ u : State τ, t = (u.keepRows k vs).keepOutputs q k ∧ u.session.loaded.get? k = none ∧
      s.fetch env nested q k true = some (⟨.ok [], vs⟩, u.keepOutputs q k) := by
  obtain ⟨u, hload, rfl⟩ := fetch_ok h hvs
  refine ⟨u.unmark k, rfl, Table.get?_erase_self _ k, ?_⟩
  rw [fetch, load_handed hload hvs]
  rfl

theorem lookup_eq_fetch (hk : s.session.loaded.get? k = none) (handled : Bool) :
    s.lookup env nested q k handled = s.fetch env nested q k handled := by
  rw [lookup, hk]
  exact ite_self _

/-- Where no shared cache is asked, a query reaches the session in the same state either way. -/
theorem answerOnce_eq (hopen : s.session.closed = false)
    (hlocal : s.session.sharedCache q.statement = none ∨ q.statement.usesCache = false)
    (handled : Bool) : s.answerOnce env nested q k handled =
      (s.reaching q k false).answerLocal env nested q k handled := by
  rw [answerOnce, ensureOpen_eq hopen, reaching]
  dsimp only
  cases hcache : s.session.sharedCache q.statement with
  | none => rfl
  | some r =>
    have huses : q.statement.usesCache = false := hlocal.resolve_left (by simp [hcache])
    simp [huses]

/-- Setting what waits, which ends a query that succeeded, changes the heap last. -/
theorem heap_finish (hvs : reply.result = .ok vs) :
    (s.finish reply).2.heap =
      (loadAll s.session.loaded s.session.deferred s.heap).2 := by
  rw [finish_ok hvs]
  dsimp only
  split <;> rfl

/-- The states differ in what the sessions hold for one key, and one of them holds nothing for it. -/
structure Misses (k : Key) (s t : State τ) : Prop where
  heap : t.heap = s.heap
  depth : t.session.depth = s.session.depth
  deferred : t.session.deferred = s.session.deferred
  loaded : ∀ j, j ≠ k → t.session.loaded.get? j = s.session.loaded.get? j
  missing : t.session.loaded.get? k = none

theorem misses_keepRows (hk : s.session.loaded.get? k = none) (q : Query) (vs : List Value) :
    Misses k ((s.keepRows k vs).keepOutputs q k).leave (s.keepOutputs q k).leave := by
  obtain ⟨outputs, hkept⟩ := (s.keepRows k vs).keepOutputs_outputs q k
  obtain ⟨outputs', hhanded⟩ := s.keepOutputs_outputs q k
  rw [hkept, hhanded]
  refine ⟨rfl, rfl, rfl, fun j hj => ?_, hk⟩
  exact (Table.get?_insert_of_ne _ _ hj).symm

/-- Up to its ending a query does the same whether its rows are returned or handed over, but for
keeping them. -/
theorem inside_handed (hk : (s.opened q).session.loaded.get? k = none)
    (h : s.inside env nested q k false = some (reply, t)) (hvs : reply.result = .ok vs) :
    ∃ t', s.inside env nested q k true = some (⟨.ok [], vs⟩, t') ∧ t.Misses k t' := by
  have hlookup : ∀ handled, (s.opened q).enter.lookup env nested q k handled =
      (s.opened q).enter.fetch env nested q k handled := lookup_eq_fetch hk
  obtain ⟨⟨a, v⟩, hfetch, ha⟩ := Option.map_eq_some_iff.1 h
  cases ha
  rw [hlookup] at hfetch
  obtain ⟨w, rfl, hmissing, hhanded⟩ := fetch_handed hfetch hvs
  refine ⟨(w.keepOutputs q k).leave, ?_, misses_keepRows hmissing q vs⟩
  rw [inside, hlookup, hhanded]
  rfl

/-- If everything that waits can be set, what does not wait for the missing key is set alike. -/
theorem Misses.finish (hst : Misses k s t) {a b : Reply} (ha : a.result = .ok vs)
    {ws : List Value} (hb : b.result = .ok ws) (hok : s.drain.1 = .ok ()) :
    (t.finish b).1 = b ∧
      (s.finish a).2.heap.AgreeBut (Fill (waitingFor k s.session.deferred)) (t.finish b).2.heap ∧
      (waitingFor k s.session.deferred = [] → (t.finish b).2.heap = (s.finish a).2.heap) := by
  have hW : ∀ d ∈ s.session.deferred, d.key = k →
      Fill (waitingFor k s.session.deferred) d.object d.property :=
    fun d hd hk => ⟨d, List.mem_filter.2 ⟨hd, by simpa using hk⟩, rfl, rfl⟩
  obtain ⟨hdrain, hagree⟩ := Session.Deferred.loadAll_agree hst.loaded hst.missing hW
    (.refl _ s.heap) hok
  rw [heap_finish ha, heap_finish hb, hst.heap, hst.deferred]
  refine ⟨?_, hagree, fun hnone => ?_⟩
  · have hdrain' : t.drain.1 = .ok () := by
      rw [drain, hst.heap, hst.deferred]
      exact hdrain
    rw [finish_ok hb, hdrain']
    obtain ⟨r, gone⟩ := b
    cases hb
    rfl
  · refine congrArg Prod.snd (Session.Deferred.loadAll_congr (fun d hd => ?_) s.heap)
    have hne : d.key ≠ k := fun hk => by
      have hmem : d ∈ waitingFor k s.session.deferred :=
        List.mem_filter.2 ⟨hd, by simpa using hk⟩
      rw [hnone] at hmem
      cases hmem
    exact hst.loaded d.key hne

end State

/-- The properties that wait for the key of the query itself once its rows are there. -/
def Env.ownWaits (env : Env τ) (limit : Nat) (q : Query) (k : Key) (s : State τ) :
    List Session.Deferred :=
  match env.inside limit q k false s with
  | some (_, u) => waitingFor k u.session.deferred
  | none => []

section Handed

variable {env : Env τ} {limit : Nat} {q : Query} {key : Option Key} {k : Key} {s t : State τ}
  {reply : Reply} {vs : List Value}

/-- Where a query is loaded and its rows are returned, they can be handed over. -/
theorem answer_handed (hdepth : s.session.depth = 0) (hopen : s.session.closed = false)
    (hlocal : s.session.sharedCache q.statement = none ∨ q.statement.usesCache = false)
    (hfree : s.session.loaded.get? k = none)
    (h : env.answer limit q k false s = some (reply, t)) (hvs : reply.result = .ok vs) :
    ∃ t', env.answer limit q k true s = some (⟨.ok [], vs⟩, t') ∧
      t.heap.AgreeBut (Fill (env.ownWaits limit q k s)) t'.heap ∧
      (env.ownWaits limit q k s = [] → t'.heap = t.heap) := by
  cases limit with
  | zero => cases h
  | succ limit =>
    have hreached : ((s.reaching q k false).opened q).session.loaded.get? k = none := by
      rw [Option.eq_none_iff_forall_ne_some]
      intro e he
      have hheld := State.get?_opened (s := s.reaching q k false) he
      rw [Session.eq_of_own_eq (State.own_reaching q k false s), hfree] at hheld
      cases hheld
    rw [Env.answer, State.answerOnce_eq hopen hlocal, State.answerLocal_eq] at h
    obtain ⟨⟨a, u⟩, hinside, hending⟩ := Option.map_eq_some_iff.1 h
    have henv : env.inside (limit + 1) q k false s = some (a, u) := hinside
    have hwaits : env.ownWaits (limit + 1) q k s = waitingFor k u.session.deferred := by
      rw [Env.ownWaits, henv]
    have hzero : ¬ 0 < u.session.depth := by
      rw [((State.restores_tracks env).envInside henv).depth, hdepth]
      decide
    rw [State.ending, if_neg hzero] at hending
    have hresult : (u.finish a).1.result = .ok vs := by
      rw [hending]
      exact hvs
    obtain ⟨ha, hdrain⟩ := State.result_finish hresult
    obtain ⟨u', hinside', hmisses⟩ := State.inside_handed hreached hinside ha
    obtain ⟨hreply, hagree, hsame⟩ := hmisses.finish ha (b := ⟨.ok [], vs⟩) rfl hdrain
    rw [hending] at hagree hsame
    rw [hwaits]
    refine ⟨(u'.finish ⟨.ok [], vs⟩).2, ?_, hagree, hsame⟩
    rw [Env.answer, State.answerOnce_eq hopen hlocal, State.answerLocal_eq, hinside',
      Option.map_some, State.ending, if_neg (hmisses.depth ▸ hzero)]
    exact congrArg some (Prod.ext hreply rfl)

/-- Handing the rows of a query over gives the rows that the query returns otherwise, and objects with
the same properties, apart from those that wait for the key of the query itself: these are not set. So
if none does, the rows are the same, whatever nested queries come to. This is for a query that the
session was not asked before and for which no shared cache is asked. -/
theorem handed_rows_agree (hdepth : s.session.depth = 0)
    (hlocal : s.session.sharedCache q.statement = none ∨ q.statement.usesCache = false)
    (hfree : s.session.loaded.get?
      (key.getD (Session.keyOf env.hash s.heap s.session.config q)) = none)
    (h : env.perform limit (.query q key false) s = some (reply, t)) (hvs : reply.result = .ok vs) :
    let waits := env.ownWaits limit q
      (key.getD (Session.keyOf env.hash s.heap s.session.config q)) s
    ∃ t', env.perform limit (.query q key true) s = some (⟨.ok [], vs⟩, t') ∧
      t'.heap.size = t.heap.size ∧
      (∀ o name, ¬ Fill waits o name → t'.heap.read o name = t.heap.read o name) ∧
      (waits = [] → t'.heap = t.heap) := by
  cases hopen : s.session.closed with
  | true =>
    rw [(perform_query_closed hopen h).1] at hvs
    cases hvs
  | false =>
    obtain ⟨t', ht', hagree, hsame⟩ :=
      answer_handed hdepth hopen hlocal hfree (perform_query_open hopen h) hvs
    exact ⟨t', (perform_query_eq hopen).trans ht', hagree.size, hagree.read, hsame⟩

end Handed

/-- The author of a book is handed over. The book is set, and only the writer of the book, which is
the author, is not. -/
theorem handed_rows_agree_library :
    ∃ reply t t', library.env.perform 4 (.query (askOne authorQuery) none false) newSession =
        some (reply, t) ∧ reply.result = .ok [.object ⟨0⟩] ∧
      library.env.perform 4 (.query (askOne authorQuery) none true) newSession =
        some (⟨.ok [], [.object ⟨0⟩]⟩, t') ∧
      t.heap.read ⟨0⟩ "book" = some (.object ⟨1⟩) ∧
      t'.heap.read ⟨0⟩ "book" = t.heap.read ⟨0⟩ "book" := by
  have hrun : (library.env.perform 4 (.query (askOne authorQuery) none false) newSession).map
      (fun p => (p.1.result, p.2.heap.read ⟨0⟩ "book")) =
        some (.ok [.object ⟨0⟩], some (.object ⟨1⟩)) := by cbv
  have hwaits : (library.env.ownWaits 4 (askOne authorQuery)
      (Session.keyOf flatHash .empty .standard (askOne authorQuery)) newSession).map
        (fun d => (d.object, d.property)) = [(⟨1⟩, "writer")] := by cbv
  obtain ⟨⟨reply, t⟩, hperform, hp⟩ := Option.map_eq_some_iff.1 hrun
  obtain ⟨hresult, hbook⟩ := Prod.mk.inj hp
  obtain ⟨t', ht', -, hread, -⟩ := handed_rows_agree (q := askOne authorQuery) (s := newSession) rfl
    (.inl (ite_self none)) (Table.get?_empty _) hperform hresult
  refine ⟨reply, t, t', hperform, hresult, ht', hbook, hread ⟨0⟩ "book" ?_⟩
  rintro ⟨d, hd, hobject, hproperty⟩
  have hmem : (d.object, d.property) ∈ [((⟨1⟩ : ObjId), "writer")] := by
    rw [← hwaits]
    exact List.mem_map_of_mem hd
  simp [hobject] at hmem

/-- The rows that a new session hands over are those that it would have returned: the same graph of
objects, up to their identities. -/
def Env.HandsSameRows (env : Env τ) : Prop :=
  ∀ (limit : Nat) (q : Query) (key : Option Key) (c : Session.Config) (w : World τ)
    (reply reply' : Reply) (t t' : State τ) (vs ws : List Value),
    env.perform limit (.query q key false) ⟨.ofConfig c, w⟩ = some (reply, t) →
    reply.result = .ok vs →
    env.perform limit (.query q key true) ⟨.ofConfig c, w⟩ = some (reply', t') →
    reply'.result = .ok ws →
    ∃ ρ, Heap.Renaming ρ t.heap t'.heap ∧ List.Forall₂ (Value.Alike ρ) vs reply'.handled

/-- A row that has itself as a property is handed over without it. -/
theorem handed_row_lacks_itself : ¬ (Env.nested flatHash .oneRow selfSelects).HandsSameRows := by
  intro hsame
  have hplain : ((Env.nested flatHash .oneRow selfSelects).perform 1 (.query selfAsk none false)
      newState).map (fun p => (p.1.result, p.2.heap.freeze (.object ⟨0⟩))) =
        some (.ok [.object ⟨0⟩], .object [("id", .int 1), ("self", .object [])]) := by cbv
  have hhanded : ((Env.nested flatHash .oneRow selfSelects).perform 1 (.query selfAsk none true)
      newState).map (fun p => (p.1, p.2.heap.freeze (.object ⟨0⟩))) =
        some (⟨.ok [], [.object ⟨0⟩]⟩, .object [("id", .int 1)]) := by cbv
  obtain ⟨⟨reply, t⟩, hperform, hp⟩ := Option.map_eq_some_iff.1 hplain
  obtain ⟨⟨reply', t'⟩, hperform', hp'⟩ := Option.map_eq_some_iff.1 hhanded
  obtain ⟨hresult, hfrozen⟩ := Prod.mk.inj hp
  obtain ⟨rfl, hfrozen'⟩ := Prod.mk.inj hp'
  obtain ⟨ρ, hρ, hrows⟩ := hsame 1 selfAsk none .standard _ reply _ t t' _ _ hperform hresult
    hperform' rfl
  have hequal := map_eq_of_forall₂ hrows fun _ _ _ hvw => hρ.freeze_eq hvw
  simp [hfrozen, hfrozen'] at hequal

end ResultCache
