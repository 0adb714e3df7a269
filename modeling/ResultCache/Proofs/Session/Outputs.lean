import ResultCache.Proofs.Session.Retrying
import ResultCache.Proofs.Session.Sparing

/-!
# Output parameters of repeated procedure calls

A procedure sets output parameters of the object it is called with. Its rows are kept like those of
any query, so when it is asked for again it need not be called; then the output parameters are set to
what they were in the object that it was called with. What is kept of that object is right
(`Session.Recalls`), as long as the properties nested in the rows are filled by other statements, which
set no parameters themselves.

But nothing is kept of a call with a parameter that is no object, though its rows are. If such a call
brings the rows into the session, an object that is passed next gets no output parameters
(`output_parameters_lost`). While none does, all of them are set, by the procedure or from what the
session keeps (`output_parameters_set`): a call that leaves no rows does no harm, nor does one that
finds them there.
-/
namespace ResultCache

variable {τ : Type}

open Session.Deferred (loadAll)

/-- Output parameters are set to what a record has under their names. -/
theorem Heap.read_setAll {h : Heap} {o : ObjId} (ho : o.index < h.size) (ps : List Parameter)
    (r : Record) (name : String) : (h.setAll o ps r).read o name =
      if name ∈ ps.map (·.name) then some (.ofOption (NameMap.get? r name)) else h.read o name := by
  induction ps generalizing h with
  | nil => rfl
  | cons p ps ih =>
    have hcons : h.setAll o (p :: ps) r =
        (h.write o p.name (.ofOption (NameMap.get? r p.name))).setAll o ps r := rfl
    rw [hcons, ih (by simpa using ho), List.map_cons]
    by_cases hps : name ∈ ps.map (·.name)
    · rw [if_pos hps, if_pos (List.mem_cons_of_mem _ hps)]
    · rw [if_neg hps]
      by_cases hp : name = p.name
      · rw [hp, if_pos List.mem_cons_self, read_write_self ho]
      · rw [if_neg (by simp [hp, hps]), read_write_of_ne h o _ hp]

/-- What the data source sets the output parameters of a procedure call to depends on what is asked
alone; it is null where `out` has nothing. -/
structure DataSource.Yields (D : DataSource τ) (out : Asking → Record) : Prop extends D.Leaves where
  sets : ∀ {q : Query} {h h' : Heap} {t t' : τ} {rows : List Record} {o : ObjId},
    q.statement.isCallable → q.param = .object o → o.index < h.size →
    D.query q.statement q.binding q.param q.window h t = (.ok rows, h', t') →
    ∀ p ∈ q.outputs, h'.read o p.name = some (.ofOption (NameMap.get? (out (q.asked h)) p.name))

/-- Whether a session has the rows of a key. -/
def Session.hasRows (s : Session) (k : Key) : Bool :=
  ((s.loaded.get? k).bind Entry.results?).isSome

theorem Session.hasRows_congr {s t : Session} {k : Key}
    (h : t.loaded.get? k = s.loaded.get? k) : t.hasRows k = s.hasRows k := by
  rw [hasRows, h, hasRows]

/-- One query of a statement that is asked for again and again: what it asked for, with which
parameter, and whether the session had the rows before it and after it. -/
structure Repetition where
  asking : Asking
  param : Value
  before : Bool
  after : Bool

/-- A session that was asked for nothing but one statement, with any parameters and in any world each
time, and what it was asked, the latest first. -/
inductive Session.Repeats (env : Env τ) (st : Statement) : List Repetition → Session → Prop
  | new (c : Session.Config) (walk : Buffers.Walk) : Repeats env st [] (.new c walk)
  | query {past : List Repetition} {s t : State τ} {limit : Nat} {param : Value}
    {w : Window} {k : Key} {reply : Reply} : Repeats env st past s.session →
    (∀ o, param = .object o → o.index < s.heap.size) →
    Session.keyOf env.hash s.heap s.session.config (.ofStatement st param w) = k →
    env.perform limit (.query (.ofStatement st param w) none false) s = some (reply, t) →
    Repeats env st (⟨(Query.ofStatement st param w).asked s.heap, param, s.session.hasRows k,
      t.session.hasRows k⟩ :: past) t.session

/-- One of the queries that asked for this brought the rows into the session, with a parameter that is
no object. -/
def BroughtBare (past : List Repetition) (a : Asking) : Prop :=
  ∃ x ∈ past, x.asking = a ∧ (∀ o, x.param ≠ .object o) ∧ x.before = false ∧ x.after = true

/-- What the session keeps of the parameter objects of a procedure is right, and it has rows without
such an object only of what is `bare`. What is dropped when the procedure is asked for does not
matter. -/
structure Session.Recalls (H : ComponentHash) (st : Statement) (out : Asking → Record)
    (bare : Asking → Prop) (s : Session) : Prop where
  outputs : ∀ v w h r,
    s.outputs.get? (Session.keyOf H h s.config (.ofStatement st v w)) = some r →
    ∀ p ∈ (Query.ofStatement st v w).outputs, NameMap.get? r p.name =
      some (.ofOption (NameMap.get? (out ((Query.ofStatement st v w).asked h)) p.name))
  rows : st.flushes = false → ∀ v w h,
    s.hasRows (Session.keyOf H h s.config (.ofStatement st v w)) = true →
    s.outputs.get? (Session.keyOf H h s.config (.ofStatement st v w)) = none →
    bare ((Query.ofStatement st v w).asked h)

namespace Session.Recalls

variable {H : ComponentHash} {st : Statement} {out : Asking → Record}
  {bare bare' : Asking → Prop} {s t : Session}

theorem of_bare (hs : s.Bare) : s.Recalls H st out bare := by
  constructor
  · intro v w h r hr
    simp [hs.outputs] at hr
  · intro _ v w h hrows
    simp [Session.hasRows, hs.loaded] at hrows

theorem of_eq (hs : s.Recalls H st out bare) (hconfig : t.config = s.config)
    (hloaded : t.loaded = s.loaded) (houtputs : t.outputs = s.outputs) :
    t.Recalls H st out bare := by
  have hrows : t.hasRows = s.hasRows := funext fun k => Session.hasRows_congr (by rw [hloaded])
  constructor
  · rw [hconfig, houtputs]
    exact hs.outputs
  · rw [hconfig, hrows, houtputs]
    exact hs.rows

theorem of_own_eq (hs : s.Recalls H st out bare) (hown : t.own = s.own) :
    t.Recalls H st out bare := by
  rw [Session.eq_of_own_eq hown]
  exact hs.of_eq rfl rfl rfl

theorem mono (hs : s.Recalls H st out bare) (h : ∀ a, bare a → bare' a) :
    s.Recalls H st out bare' :=
  ⟨hs.outputs, fun hflushes v w i hrows hnone => h _ (hs.rows hflushes v w i hrows hnone)⟩

/-- One query changes what the session holds for its own key. -/
theorem update (hs : s.Recalls H st out bare) (hconfig : t.config = s.config) {v : Value}
    {w : Window} {h : Heap} {k : Key} (hk : Session.keyOf H h s.config (.ofStatement st v w) = k)
    (hother : ∀ j, j.Names st.id → j ≠ k → t.loaded.get? j = s.loaded.get? j ∧
      t.outputs.get? j = s.outputs.get? j)
    (houtputs : ∀ r, t.outputs.get? k = some r → ∀ p ∈ (Query.ofStatement st v w).outputs,
      NameMap.get? r p.name =
        some (.ofOption (NameMap.get? (out ((Query.ofStatement st v w).asked h)) p.name)))
    (hrows : st.flushes = false → t.hasRows k = true → t.outputs.get? k = none →
      bare ((Query.ofStatement st v w).asked h)) : t.Recalls H st out bare := by
  have hnames := fun v' w' h' =>
    Query.head?_components_keyOf H h' s.config (Query.ofStatement st v' w')
  subst hk
  constructor
  · intro v' w' h' r hr p hp
    rw [hconfig] at hr
    by_cases hsame : Session.keyOf H h' s.config (.ofStatement st v' w') =
        Session.keyOf H h s.config (.ofStatement st v w)
    · rw [hsame] at hr
      rw [Query.keyOf_eq_iff.1 hsame]
      exact houtputs r hr p hp
    · rw [(hother _ (hnames v' w' h') hsame).2] at hr
      exact hs.outputs v' w' h' r hr p hp
  · intro hflushes v' w' h' hsome hnone
    rw [hconfig] at hsome hnone
    by_cases hsame : Session.keyOf H h' s.config (.ofStatement st v' w') =
        Session.keyOf H h s.config (.ofStatement st v w)
    · rw [hsame] at hsome hnone
      rw [Query.keyOf_eq_iff.1 hsame]
      exact hrows hflushes hsome hnone
    · obtain ⟨hloaded, hkept⟩ := hother _ (hnames v' w' h') hsame
      rw [Session.hasRows_congr hloaded] at hsome
      rw [hkept] at hnone
      exact hs.rows hflushes v' w' h' hsome hnone

/-- A session that is emptied recalls nothing. -/
theorem clearLoaded (hs : s.Recalls H st out bare) : s.clearLoaded.Recalls H st out bare := by
  rw [Session.clearLoaded]
  split
  · exact hs
  · exact .of_bare ⟨rfl, rfl⟩

end Session.Recalls

section Call

variable {H : ComponentHash} {D : DataSource τ} {ns : String → List NestedSelect} {st : Statement}
  {out : Asking → Record} {bare : Asking → Prop} {fresh : Prop} {v : Value} {w : Window} {k : Key}
  {nested : Answering τ} {s t : State τ} {reply : Reply}

/-- The output parameters of the object have the values that belong to what is asked. -/
def Heap.HasOutputs (out : Asking → Record) (q : Query) (a : Asking) (o : ObjId) (h : Heap) : Prop :=
  ∀ p ∈ q.outputs, h.read o p.name = some (.ofOption (NameMap.get? (out a) p.name))

theorem Heap.HasOutputs.of_record?_eq {q : Query} {a : Asking} {o : ObjId} {h h' : Heap}
    (ho : h.HasOutputs out q a o) (heq : h'.record? o = h.record? o) : h'.HasOutputs out q a o := by
  intro p hp
  rw [Heap.read, heq]
  exact ho p hp

/-- What calling a procedure comes to when its rows have become objects: nothing new is held for its
statement, what began to wait is set on new objects, and the output parameters are set. -/
structure State.Called (out : Asking → Record) (q : Query) (s : State τ) (reply : Reply)
    (t : State τ) : Prop where
  size_le : s.heap.size ≤ t.heap.size
  loaded : ∀ j, j.Names q.statement.id → t.session.loaded.get? j = s.session.loaded.get? j
  kept : ∀ j, j.Names q.statement.id → t.session.outputs.get? j = s.session.outputs.get? j
  waits : ∀ d ∈ t.session.deferred, d ∈ s.session.deferred ∨ s.heap.size ≤ d.object.index
  outputs : ∀ o vs, q.param = .object o → o.index < s.heap.size → reply.result = .ok vs →
    t.heap.HasOutputs out q (q.asked s.heap) o

theorem called_of_load (hcall : st.isCallable) (hD : D.Yields out)
    (hn : nested.Spares st.id s.heap.size) (hns : NestedSelect.Apart st.id ns)
    (hdepth : 0 < s.session.depth)
    (h : s.load (.nested H D ns) nested (.ofStatement st v w) false = some (reply, t)) :
    s.Called out (.ofStatement st v w) reply t := by
  have hsize := hD.size_le (.ofStatement st v w) s.heap s.world.source
  cases hquery : D.query st st.binding v w s.heap s.world.source with
  | mk rows y =>
    obtain ⟨h', x⟩ := y
    have hle : s.heap.size ≤ h'.size := by
      have hbefore : s.heap.size ≤ (D.query st st.binding v w s.heap s.world.source).2.1.size :=
        hsize
      rwa [hquery] at hbefore
    have hspares := spares_load hn hns hdepth hquery hle h
    refine ⟨Nat.le_trans hle hspares.size_le, hspares.loaded, hspares.outputs, hspares.waits,
      fun o vs hv ho hvs => ?_⟩
    obtain ⟨rows', i, y, hrows⟩ := State.load_ok h hvs
    have hrows : D.query st st.binding v w s.heap s.world.source = (.ok rows', i, y) := hrows
    rw [hquery] at hrows
    cases hrows
    have hset : Heap.HasOutputs out (.ofStatement st v w) _ o h' := hD.sets hcall hv ho hquery
    exact hset.of_record?_eq (hspares.record? o ho)

/-- What was bare is bare, and what is asked for with a parameter that is no object if the session
is to be `fresh` for it. -/
def OrBare (bare : Asking → Prop) (fresh : Prop) (a : Asking) (v : Value) (b : Asking) : Prop :=
  bare b ∨ (b = a ∧ (∀ o, v ≠ .object o) ∧ fresh)

/-- What is known of a session, which was asked for `a` with the parameter `v`, when the answer is
there. -/
structure State.Recalled (H : ComponentHash) (st : Statement) (out : Asking → Record)
    (bare : Asking → Prop) (fresh : Prop) (v : Value) (w : Window) (a : Asking) (n : Nat)
    (reply : Reply) (t : State τ) : Prop where
  recalls : t.session.Recalls H st out (OrBare bare fresh a v)
  waits : ∀ d ∈ t.session.deferred, n ≤ d.object.index
  outputs : ∀ o vs, v = .object o → o.index < n → reply.result = .ok vs →
    (st.flushes = false → ¬ bare a) → t.heap.HasOutputs out (.ofStatement st v w) a o

/-- Buffers and shared caches do not matter. -/
theorem State.Recalled.of_own_eq {a : Asking} {n : Nat} {u : State τ}
    (ht : t.Recalled H st out bare fresh v w a n reply) (hown : u.session.own = t.session.own)
    (hheap : u.heap = t.heap) : u.Recalled H st out bare fresh v w a n reply := by
  have hu := Session.eq_of_own_eq hown
  refine ⟨ht.recalls.of_own_eq hown, ?_, fun o vs hv ho hvs hbare => ?_⟩
  · rw [hu]
    exact ht.waits
  · exact (ht.outputs o vs hv ho hvs hbare).of_record?_eq (by rw [hheap])

/-- The object that a procedure was called with is kept as it is when the rows are there. -/
theorem State.keepOutputs_object {q : Query} (hcall : q.statement.isCallable) {o : ObjId}
    (ho : q.param = .object o) {r : Record} (hr : s.heap.record? o = some r) (k : Key) :
    s.keepOutputs q k =
      { s with session := { s.session with outputs := s.session.outputs.insert k r } } := by
  rw [keepOutputs, if_pos hcall, ho]
  dsimp only
  rw [hr]

theorem State.keepOutputs_bare {q : Query} (hbare : ∀ o, q.param ≠ .object o) (k : Key)
    (s : State τ) : s.keepOutputs q k = s := by
  rw [keepOutputs]
  split
  · split
    · rename_i o ho
      exact absurd ho (hbare o)
    · rfl
  · rfl

theorem recalls_unmark (hs : s.session.Recalls H st out bare)
    (hk : Session.keyOf H s.heap s.session.config (.ofStatement st v w) = k)
    (ht : (s.mark k).Called out (.ofStatement st v w) reply t)
    (hconfig : t.session.config = s.session.config) :
    (t.unmark k).session.Recalls H st out bare := by
  have hnames : k.Names st.id := hk ▸ Query.head?_components_keyOf H s.heap s.session.config _
  refine hs.update hconfig hk (fun j hj hne => ⟨?_, ht.kept j hj⟩) (fun r hr => ?_) fun _ hrows => ?_
  · rw [State.unmark, Table.get?_erase_of_ne _ hne, ht.loaded j hj]
    exact Table.get?_insert_of_ne _ _ hne
  · have hbefore : s.session.outputs.get? k = some r := (ht.kept k hnames).symm.trans hr
    rw [← hk] at hbefore
    exact hs.outputs v w s.heap r hbefore
  · rw [Session.hasRows, State.unmark, Table.get?_erase_self] at hrows
    cases hrows

/-- When rows are kept, so is the object that the procedure was called with, if it is one. -/
theorem recalls_keepRows {vs : List Value} (hcall : st.isCallable)
    (hs : s.session.Recalls H st out bare) (hfresh : st.flushes = false → fresh)
    (hk : Session.keyOf H s.heap s.session.config (.ofStatement st v w) = k)
    (hparam : ∀ o, v = .object o → o.index < s.heap.size)
    (ht : (s.mark k).Called out (.ofStatement st v w) reply t) (hvs : reply.result = .ok vs)
    (hconfig : t.session.config = s.session.config) :
    (((t.unmark k).keepRows k vs).keepOutputs (.ofStatement st v w) k).session.Recalls H st out
      (OrBare bare fresh ((Query.ofStatement st v w).asked s.heap) v) := by
  have hunmark : (t.unmark k).session.Recalls H st out
      (OrBare bare fresh ((Query.ofStatement st v w).asked s.heap) v) :=
    (recalls_unmark hs hk ht hconfig).mono fun _ => .inl
  have hk' : Session.keyOf H s.heap (t.unmark k).session.config (.ofStatement st v w) = k := by
    rw [← hk]
    exact congrArg (Session.keyOf H s.heap · _) hconfig
  -- the rows are kept in both cases, but only an object is kept beside them
  by_cases hv : ∃ o, v = .object o
  · obtain ⟨o, rfl⟩ := hv
    have hlt : o.index < t.heap.size := Nat.lt_of_lt_of_le (hparam o rfl) ht.size_le
    obtain ⟨r, hr⟩ := Option.isSome_iff_exists.1 (Heap.record?_isSome_iff.2 hlt)
    have hset := ht.outputs o vs rfl (hparam o rfl) hvs
    rw [State.keepOutputs_object (s := (t.unmark k).keepRows k vs) hcall rfl hr]
    refine hunmark.update rfl hk' (fun j _ hne => ⟨?_, ?_⟩) (fun r' hr' p hp => ?_)
      fun _ _ hnone => ?_
    · exact Table.get?_insert_of_ne _ _ hne
    · exact Table.get?_insert_of_ne _ _ hne
    · rw [Table.get?_insert_self] at hr'
      cases hr'
      have hread := hset p hp
      rw [Heap.read, hr] at hread
      exact hread
    · rw [Table.get?_insert_self] at hnone
      cases hnone
  · have hbare : ∀ o, v ≠ .object o := fun o ho => hv ⟨o, ho⟩
    rw [State.keepOutputs_bare hbare]
    refine hunmark.update rfl hk' (fun j _ hne => ⟨?_, rfl⟩) (fun r hr => ?_) fun hflushes _ _ => ?_
    · exact Table.get?_insert_of_ne _ _ hne
    · have hbefore := hunmark.outputs v w s.heap r
      rw [hk'] at hbefore
      exact hbefore hr
    · exact .inr ⟨rfl, hbare, hfresh hflushes⟩

theorem State.heap_opened (q : Query) (s : State τ) : (s.opened q).heap = s.heap := by
  rw [opened]
  split <;> rfl

theorem State.config_opened (q : Query) (s : State τ) :
    (s.opened q).session.config = s.session.config := by
  rw [opened, clearLoaded, Session.clearLoaded]
  repeat' split
  all_goals rfl

theorem Session.Recalls.opened (hs : s.session.Recalls H st out bare) (q : Query) :
    (s.opened q).session.Recalls H st out bare := by
  rw [State.opened]
  split
  · exact hs.clearLoaded
  · exact hs

/-- An idle open session that is asked for a statement that flushes has no rows from then on. -/
theorem State.loaded_opened {q : Query} (hdepth : s.session.depth = 0)
    (hopen : s.session.closed = false) (hflushes : q.statement.flushes = true) :
    (s.opened q).session.loaded = .empty := by
  rw [opened, if_pos (by rw [hdepth, hflushes]; rfl), clearLoaded, Session.clearLoaded,
    if_neg (by rw [hopen]; decide)]

theorem State.opened_of_not_flushes {q : Query} (hflushes : q.statement.flushes = false) :
    s.opened q = s := by
  rw [opened, hflushes, Bool.and_false, if_neg Bool.false_ne_true]

section Inside

variable {limit : Nat} (hcall : st.isCallable) (hD : D.Yields out)
  (hns : NestedSelect.Apart st.id ns)

include hcall hD hns

/-- The session, in which nothing waits, calls the procedure under a mark. -/
theorem called_under_mark (hwaits : s.session.deferred = []) (hdepth : 0 < s.session.depth)
    (h : (s.mark k).load (.nested H D ns) ((Env.nested H D ns).answer limit) (.ofStatement st v w)
      false = some (reply, t)) :
    (s.mark k).Called out (.ofStatement st v w) reply t ∧ t.session.config = s.session.config ∧
      ∀ d ∈ t.session.deferred, s.heap.size ≤ d.object.index := by
  have hR := State.restores_tracks (Env.nested H D ns)
  have ht := called_of_load (s := s.mark k) hcall hD (spares_answer hD.toLeaves hns limit) hns
    hdepth h
  refine ⟨ht, (hR.load (fun _ _ _ _ _ _ => hR.answer) h).config, fun d hd => ?_⟩
  obtain hd | hd := ht.waits d hd
  · change d ∈ s.session.deferred at hd
    rw [hwaits] at hd
    cases hd
  · exact hd

theorem recalled_fetch (hs : s.session.Recalls H st out bare) (hfresh : st.flushes = false → fresh)
    (hwaits : s.session.deferred = []) (hdepth : 0 < s.session.depth)
    (hk : Session.keyOf H s.heap s.session.config (.ofStatement st v w) = k)
    (hparam : ∀ o, v = .object o → o.index < s.heap.size)
    (h : s.fetch (.nested H D ns) ((Env.nested H D ns).answer limit) (.ofStatement st v w) k false =
      some (reply, t)) :
    t.Recalled H st out bare fresh v w ((Query.ofStatement st v w).asked s.heap) s.heap.size
      reply := by
  cases hresult : reply.result with
  | error f =>
    obtain ⟨u, hu, rfl⟩ := State.fetch_error h hresult
    obtain ⟨ht, hconfig, hnew⟩ := called_under_mark hcall hD hns hwaits hdepth hu
    exact ⟨(recalls_unmark hs hk ht hconfig).mono fun _ => .inl, hnew, fun o vs _ _ hvs => by
      rw [hresult] at hvs; cases hvs⟩
  | ok vs =>
    obtain ⟨u, hu, rfl⟩ := State.fetch_ok h hresult
    obtain ⟨ht, hconfig, hnew⟩ := called_under_mark hcall hD hns hwaits hdepth hu
    obtain ⟨O, hkeep, -⟩ :=
      ((u.unmark k).keepRows k vs).keepOutputs_get? (.ofStatement st v w) k
    refine ⟨recalls_keepRows hcall hs hfresh hk hparam ht hresult hconfig, ?_, ?_⟩
    · rw [if_neg Bool.false_ne_true, hkeep]
      exact hnew
    · intro o ws hv ho hws _
      rw [if_neg Bool.false_ne_true, hkeep]
      exact ht.outputs o ws hv ho hws

/-- When the rows are held, the output parameters are set from the object that is kept. -/
theorem recalled_lookup (hs : s.session.Recalls H st out bare)
    (hfresh : st.flushes = false → s.session.hasRows k = false → fresh)
    (hcleared : st.flushes = true → s.session.loaded = .empty) (hwaits : s.session.deferred = [])
    (hdepth : 0 < s.session.depth)
    (hk : Session.keyOf H s.heap s.session.config (.ofStatement st v w) = k)
    (hparam : ∀ o, v = .object o → o.index < s.heap.size)
    (h : s.lookup (.nested H D ns) ((Env.nested H D ns).answer limit) (.ofStatement st v w) k
      false = some (reply, t)) :
    t.Recalled H st out bare fresh v w ((Query.ofStatement st v w).asked s.heap) s.heap.size
      reply := by
  have hnone : ∀ d ∈ s.session.deferred, s.heap.size ≤ d.object.index := by
    rw [hwaits]
    exact List.forall_mem_nil _
  cases State.looked_of_lookup h with
  | reentered _ _ =>
    exact ⟨hs.mono fun _ => .inl, hnone, fun _ _ _ _ hvs => by cases hvs⟩
  | held _ hheld hws =>
    obtain ⟨i, hrestore⟩ := s.restoreOutputs_heap (.ofStatement st v w) k
    refine ⟨?_, ?_, fun o vs hv ho _ hbare p hp => ?_⟩
    · rw [hrestore]
      exact hs.mono fun _ => .inl
    · rw [hrestore]
      exact hnone
    · subst hk hv
      rw [State.restoreOutputs, if_pos (show (Query.ofStatement st _ w).statement.isCallable
        from hcall)]
      cases hkept : s.session.outputs.get?
        (Session.keyOf H s.heap s.session.config (.ofStatement st (.object o) w)) with
      | none =>
        cases hflushes : st.flushes with
        | true =>
          rw [hcleared hflushes] at hheld
          cases hheld
        | false =>
          have hrows := hs.rows hflushes _ w s.heap (by rw [Session.hasRows, hheld]; simp [hws]) hkept
          exact absurd hrows (hbare hflushes)
      | some r =>
        have hread := Heap.read_setAll ho (Query.ofStatement st (.object o) w).outputs r p.name
        rw [if_pos (List.mem_map_of_mem hp), hs.outputs _ w s.heap r hkept p hp] at hread
        exact hread
  | loaded _ hmissing hfetch =>
    have hfetched : st.flushes = false → fresh :=
      fun hflushes => hfresh hflushes (by rw [Session.hasRows, hmissing rfl]; rfl)
    exact recalled_fetch hcall hD hns hs hfetched hwaits hdepth hk hparam hfetch

theorem recalled_inside (hs : s.session.Recalls H st out bare) (hidle : s.session.depth = 0)
    (hopen : s.session.closed = false) (hwaits : s.session.deferred = [])
    (hk : Session.keyOf H s.heap s.session.config (.ofStatement st v w) = k)
    (hparam : ∀ o, v = .object o → o.index < s.heap.size)
    (h : s.inside (.nested H D ns) ((Env.nested H D ns).answer limit) (.ofStatement st v w) k
      false = some (reply, t)) :
    t.Recalled H st out bare (s.session.hasRows k = false) v w
      ((Query.ofStatement st v w).asked s.heap) s.heap.size reply := by
  obtain ⟨⟨a, u⟩, hlookup, hreply⟩ := Option.map_eq_some_iff.1 h
  cases hreply
  have hcleared : st.flushes = true → (s.opened (.ofStatement st v w)).session.loaded = .empty :=
    fun hflushes => State.loaded_opened hidle hopen hflushes
  have hfresh : st.flushes = false →
      (s.opened (.ofStatement st v w)).session.hasRows k = false → s.session.hasRows k = false := by
    intro hflushes hrows
    rwa [State.opened_of_not_flushes (q := .ofStatement st v w) hflushes] at hrows
  have hopened := hs.opened (.ofStatement st v w)
  have hnone := (deferred_opened (.ofStatement st v w) s).trans hwaits
  have hconfig := State.config_opened (.ofStatement st v w) s
  have hheap := State.heap_opened (.ofStatement st v w) s
  generalize s.opened (.ofStatement st v w) = x
    at hopened hnone hconfig hheap hlookup hcleared hfresh
  have henter : x.enter.session.Recalls H st out bare := hopened.of_eq rfl rfl rfl
  rw [← hheap, ← hconfig] at hk
  rw [← hheap] at hparam ⊢
  have hu := recalled_lookup (s := x.enter) hcall hD hns henter hfresh hcleared hnone
    (Nat.succ_pos _) hk hparam hlookup
  exact ⟨hu.recalls.of_eq rfl rfl rfl, hu.waits, hu.outputs⟩

end Inside

/-- Setting what waits at the end does not touch the object of the call. -/
theorem State.Recalled.finish {a : Asking} {n : Nat}
    (ht : t.Recalled H st out bare fresh v w a n reply) :
    (t.finish reply).2.Recalled H st out bare fresh v w a n (t.finish reply).1 ∧
      (t.finish reply).2.session.deferred = [] := by
  cases hresult : reply.result with
  | error f =>
    rw [State.finish_error hresult]
    exact ⟨⟨ht.recalls.of_eq rfl rfl rfl, List.forall_mem_nil _, ht.outputs⟩, rfl⟩
  | ok vs =>
    have hdrain : t.drain.2.session.Recalls H st out (OrBare bare fresh a v) :=
      ht.recalls.of_eq rfl rfl rfl
    have hend : ∀ u : State τ, u.session.Recalls H st out (OrBare bare fresh a v) →
        u.session.deferred = [] → u.heap = t.drain.2.heap →
        u.Recalled H st out bare fresh v w a n ⟨t.drain.1.map fun _ => vs, reply.handled⟩ := by
      intro u hu hnone hheap
      refine ⟨hu, fun d hd => ?_, fun o ws hv ho _ hbare => ?_⟩
      · rw [hnone] at hd
        cases hd
      · rw [hheap]
        exact (ht.outputs o vs hv ho hresult hbare).of_record?_eq (State.record?_drain ht.waits ho)
    rw [State.finish_ok hresult]
    dsimp only
    split
    · refine ⟨hend _ hdrain.clearLoaded ?_ rfl, ?_⟩
      all_goals
        rw [State.clearLoaded, Session.clearLoaded]
        split <;> rfl
    · exact ⟨hend _ hdrain rfl rfl, rfl⟩

/-- A shared cache is never read for a procedure that sets parameters: the call is refused, or the
objects are as they were when the session itself is asked. -/
theorem State.early_callable {q : Query} (hcall : q.statement.isCallable)
    (hsets : Statement.setsParameters q.binding) (k : Key) (s : State τ) :
    (∃ f, s.early q k false = some (.error f)) ∨
      (s.early q k false = none ∧ (s.reaching q k false).heap = s.heap) := by
  rw [early, reaching]
  split
  · exact .inl ⟨_, rfl⟩
  · cases s.session.sharedCache q.statement with
    | none => exact .inr ⟨rfl, rfl⟩
    | some r =>
      dsimp only
      split
      · obtain ⟨bs, hflush⟩ := s.flush_buffers q.statement
        rw [hflush]
        exact .inr ⟨rfl, rfl⟩
      · rw [if_pos (by rw [hcall, hsets]; rfl)]
        exact .inl ⟨_, rfl⟩

/-- A call that is refused changes nothing. -/
theorem recalled_refused (hs : s.session.Recalls H st out bare) (hwaits : s.session.deferred = [])
    (a : Asking) (n : Nat) {f : Fault} (hf : reply.result = .error f)
    (hown : t.session.own = s.session.own) :
    t.Recalled H st out bare fresh v w a n reply ∧ t.session.deferred = [] := by
  have hnone : t.session.deferred = [] := by
    rw [Session.eq_of_own_eq hown]
    exact hwaits
  refine ⟨⟨(hs.of_own_eq hown).mono fun _ => .inl, fun d hd => ?_, fun _ _ _ _ hvs => ?_⟩, hnone⟩
  · rw [hnone] at hd
    cases hd
  · rw [hf] at hvs
    cases hvs

section Outermost

variable {limit : Nat} (hcall : st.isCallable) (hsets : Statement.setsParameters st.binding)
  (hD : D.Yields out) (hns : NestedSelect.Apart st.id ns)

include hcall hsets hD hns

theorem recalled_answer (hs : s.session.Recalls H st out bare) (hidle : s.session.Idle)
    (hopen : s.session.closed = false) (hwaits : s.session.deferred = [])
    (hk : Session.keyOf H s.heap s.session.config (.ofStatement st v w) = k)
    (hparam : ∀ o, v = .object o → o.index < s.heap.size)
    (h : (Env.nested H D ns).answer limit (.ofStatement st v w) k false s = some (reply, t)) :
    t.Recalled H st out bare (s.session.hasRows k = false) v w
        ((Query.ofStatement st v w).asked s.heap) s.heap.size reply ∧ t.session.deferred = [] := by
  have hnever := State.early_callable (q := .ofStatement st v w) hcall hsets k s
  obtain ⟨r, hearly, rfl, hown⟩ | ⟨hearly, a, u, hinside, rfl, hown, hheap⟩ :=
    outermost_cases hidle h
  · obtain ⟨f, hf⟩ | ⟨hnone, -⟩ := hnever
    · rw [hearly] at hf
      cases hf
      exact recalled_refused hs hwaits _ _ rfl hown
    · rw [hearly] at hnone
      cases hnone
  · obtain ⟨f, hf⟩ | ⟨-, hbefore⟩ := hnever
    · rw [hearly] at hf
      cases hf
    · cases limit with
      | zero => cases hinside
      | succ limit =>
        -- the objects are as they were, so the session is asked under the key of this very asking
        have hreaching := State.own_reaching (.ofStatement st v w) k false s
        change (s.reaching (.ofStatement st v w) k false).inside _ _ _ _ _ = _ at hinside
        generalize s.reaching (.ofStatement st v w) k false = x at hinside hbefore hreaching
        have hsession := Session.eq_of_own_eq hreaching
        have hnone : x.session.deferred = [] := by
          rw [hsession]
          exact hwaits
        have hdepth : x.session.depth = 0 := by
          rw [hsession]
          exact hidle.depth
        have hclosed : x.session.closed = false := by
          rw [hsession]
          exact hopen
        have hrows : x.session.hasRows k = s.session.hasRows k :=
          Session.hasRows_congr (by rw [hsession])
        have hkey : Session.keyOf H x.heap x.session.config (.ofStatement st v w) = k := by
          rw [hbefore, hsession]
          exact hk
        rw [← hbefore] at hparam ⊢
        obtain ⟨hu, hend⟩ := (recalled_inside hcall hD hns (hs.of_own_eq hreaching) hdepth hclosed
          hnone hkey hparam hinside).finish
        rw [hrows] at hu
        refine ⟨hu.of_own_eq hown hheap, ?_⟩
        rw [Session.eq_of_own_eq hown]
        exact hend

theorem recalled_query (hs : s.session.Recalls H st out bare) (hidle : s.session.Idle)
    (hwaits : s.session.deferred = [])
    (hk : Session.keyOf H s.heap s.session.config (.ofStatement st v w) = k)
    (hparam : ∀ o, v = .object o → o.index < s.heap.size)
    (h : (Env.nested H D ns).perform limit (.query (.ofStatement st v w) none false) s =
      some (reply, t)) :
    t.Recalled H st out bare (s.session.hasRows k = false) v w
        ((Query.ofStatement st v w).asked s.heap) s.heap.size reply ∧ t.session.deferred = [] := by
  cases hopen : s.session.closed with
  | true =>
    obtain ⟨hf, hown⟩ := perform_query_closed hopen h
    exact recalled_refused hs hwaits _ _ hf hown
  | false =>
    subst hk
    exact recalled_answer hcall hsets hD hns hs hidle hopen hwaits rfl hparam
      (perform_query_open hopen h)

/-- Whatever the session was asked for, what it keeps of the parameter objects is right. -/
theorem Session.Repeats.recalls {past : List Repetition} {s : Session}
    (hs : Repeats (.nested H D ns) st past s) :
    s.Recalls H st out (BroughtBare past) ∧ s.deferred = [] ∧ s.Idle := by
  induction hs with
  | new c =>
    exact ⟨.of_bare ⟨rfl, rfl⟩, rfl, rfl, fun k hk => by simp [Session.new] at hk⟩
  | @query past s t limit param w k reply _ hparam hk h ih =>
    obtain ⟨hrecalls, hwaits, hidle⟩ := ih
    have hrestores : s.Restores t := (State.restores_tracks _).perform trivial h
    obtain ⟨ht, hnone⟩ := recalled_query hcall hsets hD hns hrecalls hidle hwaits hk hparam h
    refine ⟨⟨ht.recalls.outputs, fun hflushes v w' i hrows hkept => ?_⟩, hnone,
      hidle.of_restores hrestores⟩
    obtain ⟨x, hx, hbrought⟩ | ⟨hsame, hbare, hbefore⟩ :=
      ht.recalls.rows hflushes v w' i hrows hkept
    · exact ⟨x, List.mem_cons_of_mem _ hx, hbrought⟩
    · have hkey : Session.keyOf H i t.session.config (.ofStatement st v w') = k := by
        rw [hrestores.config, ← hk]
        exact Query.keyOf_eq_iff.2 hsame
      rw [hkey] at hrows
      exact ⟨_, List.mem_cons_self, hsame.symm, hbare, hbefore, hrows⟩

omit hsets

/-- A session was asked for nothing but a procedure, with any parameters and whatever happened outside
it. When it answers a call with an object, then all output parameters of the object have the values
that belong to what is asked, whether the procedure was called or the session had its rows: unless
the rows came into the session by a query for the same with a parameter that is no object, and stay
there. -/
theorem output_parameters_set {past : List Repetition} {o : ObjId} {vs : List Value}
    (hs : Session.Repeats (.nested H D ns) st past s.session) (ho : o.index < s.heap.size)
    (h : (Env.nested H D ns).perform limit (.query (.ofStatement st (.object o) w) none false) s =
      some (reply, t)) (hvs : reply.result = .ok vs)
    (hobjects : st.flushes = false →
      ¬ BroughtBare past ((Query.ofStatement st (.object o) w).asked s.heap)) :
    t.heap.HasOutputs out (.ofStatement st (.object o) w)
      ((Query.ofStatement st (.object o) w).asked s.heap) o := by
  intro p hp
  have hsets : Statement.setsParameters st.binding := by
    obtain ⟨hmem, hdirection⟩ := List.mem_filter.1 hp
    exact List.any_eq_true.2 ⟨p, hmem, hdirection⟩
  obtain ⟨hrecalls, hwaits, hidle⟩ := hs.recalls hcall hsets hD hns
  have hparam : ∀ p, Value.object o = .object p → p.index < s.heap.size := by
    intro p hp
    cases hp
    exact ho
  obtain ⟨ht, -⟩ := recalled_query hcall hsets hD hns hrecalls hidle hwaits rfl hparam h
  exact ht.outputs o vs rfl ho hvs hobjects p hp

end Outermost

end Call

/-- The data source of rows sets output parameters to the values of its record. -/
theorem DataSource.yields_ofRows (rows : String → List Frozen → List Record) (outputs : Record) :
    (ofRows rows outputs).Yields fun _ => outputs where
  size_le q h t := by
    dsimp only [ofRows]
    split
    · exact Nat.le_of_eq (Heap.size_setAll _ _ _ _).symm
    · exact Nat.le_refl _
  record? q h t o _ hset := by
    dsimp only [ofRows]
    split
    · rename_i p hcall hp
      exact q.record?_setAll hcall hp _ _ hset
    · rfl
  sets {q h h' t t' rows' o} hcall ho hlt hquery p hp := by
    dsimp only [ofRows] at hquery
    rw [hcall, ho] at hquery
    cases hquery
    have hread := Heap.read_setAll hlt q.outputs outputs p.name
    rw [if_pos (List.mem_map_of_mem hp)] at hread
    exact hread

theorem apart_assignBook : NestedSelect.Apart assignBook.id librarySelects := by
  intro i n hn
  rw [librarySelects.eq_def] at hn
  split at hn
  · obtain rfl := List.mem_singleton.1 hn
    exact ⟨by decide, by decide⟩
  · obtain rfl := List.mem_singleton.1 hn
    exact ⟨by decide, by decide⟩
  · cases hn

/-- A new session and two authors with the number one. -/
def twoAuthors : State Unit :=
  ⟨.ofConfig .standard,
    ⟨⟨#[.ofList [("id", .int 1)], .ofList [("id", .int 1)]]⟩, .empty, 0, ()⟩⟩

/-- Assigns a book to an author, or to the number. -/
def assign (v : Value) : Call Reply := .query (.ofStatement assignBook v .unbounded) none false

/-- A book is assigned to one of two authors with one number. For the other the procedure is not
called, and the same book is assigned. -/
theorem output_parameters_set_twoAuthors :
    ∃ first s second t, assigningLibrary.perform 2 (assign (.object ⟨0⟩)) twoAuthors =
        some (first, s) ∧
      assigningLibrary.perform 2 (assign (.object ⟨1⟩)) s = some (second, t) ∧
      second.result = .ok [] ∧ s.heap.read ⟨1⟩ "book" = none ∧
      t.heap.read ⟨1⟩ "book" = some (.int 5) := by
  have hrun : (assigningLibrary.perform 2 (assign (.object ⟨0⟩)) twoAuthors).bind (fun p =>
      (assigningLibrary.perform 2 (assign (.object ⟨1⟩)) p.2).map fun p' =>
        (p.2.heap.size, p.2.heap.read ⟨1⟩ "book", p'.1.result)) = some (2, none, .ok []) := by cbv
  obtain ⟨⟨first, s⟩, hfirst, hrest⟩ := Option.bind_eq_some_iff.1 hrun
  obtain ⟨⟨second, t⟩, hsecond, hp⟩ := Option.map_eq_some_iff.1 hrest
  simp only [Prod.mk.injEq] at hp
  obtain ⟨hsize, hbefore, hresult⟩ := hp
  have hrepeats : Session.Repeats assigningLibrary assignBook _ s.session :=
    .query (s := twoAuthors) (.new .standard .insertion) (fun o ho => by cases ho; decide) rfl
      hfirst
  have hlt : (⟨1⟩ : ObjId).index < s.heap.size := by
    rw [hsize]
    decide
  have hset := output_parameters_set rfl (DataSource.yields_ofRows libraryRows _) apart_assignBook
    hrepeats hlt hsecond hresult (by
      rintro - ⟨x, hx, -, hbare, -⟩
      rw [List.mem_singleton.1 hx] at hbare
      exact hbare _ rfl)
  exact ⟨first, s, second, t, hfirst, hsecond, hresult, hbefore,
    hset ⟨"book", .output⟩ (List.mem_singleton.2 rfl)⟩

/-- Whatever the session was asked for, the output parameters of an object are set when a call with
it is answered. -/
def Env.SetsOutputs (env : Env τ) (st : Statement) (out : Asking → Record) : Prop :=
  ∀ (past : List Repetition) (limit : Nat) (w : Window) (o : ObjId) (s t : State τ)
    (reply : Reply) (vs : List Value), Session.Repeats env st past s.session →
    o.index < s.heap.size →
    env.perform limit (.query (.ofStatement st (.object o) w) none false) s = some (reply, t) →
    reply.result = .ok vs →
    t.heap.HasOutputs out (.ofStatement st (.object o) w)
      ((Query.ofStatement st (.object o) w).asked s.heap) o

/-- The procedure is called with the number one, and then no book is assigned to the author with that
number. -/
theorem output_parameters_lost :
    (DataSource.ofRows libraryRows (.ofList [("book", .int 5)])).Yields
        (fun _ => .ofList [("book", .int 5)]) ∧
      ¬ assigningLibrary.SetsOutputs assignBook fun _ => .ofList [("book", .int 5)] := by
  refine ⟨DataSource.yields_ofRows libraryRows _, fun hsets => ?_⟩
  have hrun : (assigningLibrary.perform 2 (assign (.int 1)) twoAuthors).bind (fun p =>
      (assigningLibrary.perform 2 (assign (.object ⟨0⟩)) p.2).map fun p' =>
        (p.2.heap.size, p'.1.result, p'.2.heap.read ⟨0⟩ "book")) = some (2, .ok [], none) := by cbv
  obtain ⟨⟨first, s⟩, hfirst, hrest⟩ := Option.bind_eq_some_iff.1 hrun
  obtain ⟨⟨second, t⟩, hsecond, hp⟩ := Option.map_eq_some_iff.1 hrest
  simp only [Prod.mk.injEq] at hp
  obtain ⟨hsize, hresult, hread⟩ := hp
  have hrepeats : Session.Repeats assigningLibrary assignBook _ s.session :=
    .query (s := twoAuthors) (.new .standard .insertion) (fun o ho => by cases ho) rfl hfirst
  have hlt : (⟨0⟩ : ObjId).index < s.heap.size := by
    rw [hsize]
    decide
  have hset := hsets _ 2 .unbounded ⟨0⟩ s t second [] hrepeats hlt hsecond hresult
    ⟨"book", .output⟩ (List.mem_singleton.2 rfl)
  rw [hread] at hset
  cases hset

end ResultCache
