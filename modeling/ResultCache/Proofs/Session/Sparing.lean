import ResultCache.Proofs.Session.Accounting

/-!
# What nested queries leave alone

While nested properties of an object are filled, queries run inside the one that the object is a
result of. If they run other statements, and call no procedure that sets parameters, then the session
holds what it held for the statement in question, and the objects that were there before are as they
were: a nested property is set on an object that was just made, at once or later (`State.Spares`,
`spares_answer`).
-/
namespace ResultCache

variable {τ : Type}

/-- The data source makes objects and sets output parameters of the object of a procedure call, and
leaves every other object as it is. -/
structure DataSource.Leaves (D : DataSource τ) : Prop where
  size_le : ∀ (q : Query) (h : Heap) (t : τ),
    h.size ≤ (D.query q.statement q.binding q.param q.window h t).2.1.size
  record? : ∀ (q : Query) (h : Heap) (t : τ) (o : ObjId), o.index < h.size → ¬ q.Sets o →
    (D.query q.statement q.binding q.param q.window h t).2.1.record? o = h.record? o

/-- The query is none of the statement with the id and sets no parameters. -/
structure Query.Apart (id : String) (q : Query) : Prop where
  other : q.statement.id ≠ id
  sets : ∀ o, ¬ q.Sets o

/-- No nested property is filled by the statement with the id, or by a procedure call that sets
parameters. -/
def NestedSelect.Apart (id : String) (ns : String → List NestedSelect) : Prop :=
  ∀ i, ∀ m ∈ ns i, m.statement.id ≠ id ∧
    ¬ (m.statement.isCallable ∧ Statement.setsParameters m.statement.binding)

theorem NestedSelect.Apart.query {id i : String} {ns : String → List NestedSelect}
    (hns : Apart id ns) {m : NestedSelect} (hm : m ∈ ns i) (o : ObjId) (h : Heap) :
    (m.query o h).Apart id :=
  ⟨(hns i m hm).1, fun _ hset => (hns i m hm).2 ⟨hset.1, hset.2.1⟩⟩

namespace State

/-- The session holds what it held for the statement with the id, the first `n` objects are as they
were, and only properties of other objects began to wait. -/
structure Spares (id : String) (n : Nat) (s t : State τ) : Prop where
  size_le : s.heap.size ≤ t.heap.size
  record? : ∀ o, o.index < n → t.heap.record? o = s.heap.record? o
  depth : t.session.depth = s.session.depth
  loaded : ∀ k, k.Names id → t.session.loaded.get? k = s.session.loaded.get? k
  outputs : ∀ k, k.Names id → t.session.outputs.get? k = s.session.outputs.get? k
  waits : ∀ d ∈ t.session.deferred, d ∈ s.session.deferred ∨ n ≤ d.object.index

namespace Spares

variable {id : String} {n : Nat} {s t u : State τ} {q : Query} {k : Key}

theorem refl (id : String) (n : Nat) (s : State τ) : s.Spares id n s :=
  ⟨Nat.le_refl _, fun _ _ => rfl, rfl, fun _ _ => rfl, fun _ _ => rfl, fun _ => .inl⟩

theorem trans (hst : s.Spares id n t) (htu : t.Spares id n u) : s.Spares id n u where
  size_le := Nat.le_trans hst.size_le htu.size_le
  record? o ho := (htu.record? o ho).trans (hst.record? o ho)
  depth := htu.depth.trans hst.depth
  loaded k hk := (htu.loaded k hk).trans (hst.loaded k hk)
  outputs k hk := (htu.outputs k hk).trans (hst.outputs k hk)
  waits d hd := by
    obtain hd | hd := htu.waits d hd
    · exact hst.waits d hd
    · exact .inr hd

/-- Nothing of the session's own changed, and none of the first `n` objects did. -/
theorem of_own (hown : t.session.own = s.session.own) (hsize : s.heap.size ≤ t.heap.size)
    (hrecord : ∀ o, o.index < n → t.heap.record? o = s.heap.record? o) : s.Spares id n t := by
  have hsession := Session.eq_of_own_eq hown
  refine ⟨hsize, hrecord, ?_, fun k _ => ?_, fun k _ => ?_, fun d hd => .inl ?_⟩
  · rw [hsession]
  · rw [hsession]
  · rw [hsession]
  · rwa [hsession] at hd

/-- Only new objects were made. -/
theorem of_grows (hown : t.session.own = s.session.own) (hheap : s.heap.Grows t.heap)
    (hn : n ≤ s.heap.size) : s.Spares id n t :=
  of_own hown hheap.size_le fun o ho => hheap.record? o (Nat.lt_of_lt_of_le ho hn)

/-- Only buffers and shared caches changed. -/
theorem of_heap (hown : t.session.own = s.session.own) (hheap : t.heap = s.heap) :
    s.Spares id n t :=
  of_own hown (Nat.le_of_eq (congrArg Heap.size hheap.symm)) fun _ _ => by rw [hheap]

/-- A property of another object is set. -/
theorem write {o : ObjId} (ho : n ≤ o.index) (name : String) (v : Value) (s : State τ) :
    s.Spares id n (s.withHeap (s.heap.write o name v)) := by
  refine of_own rfl (Nat.le_of_eq (Heap.size_write s.heap o name v).symm) fun p hp => ?_
  refine Heap.record?_write_of_ne s.heap name v ?_
  rintro rfl
  exact Nat.not_le.2 hp ho

/-- What the session holds for one key changes, and the key is none of the statement. -/
theorem under (hk : ∀ j, j.Names id → j ≠ k) {L : Entries} {O : Table Key Record}
    (hL : ∀ j, j ≠ k → L.get? j = s.session.loaded.get? j)
    (hO : ∀ j, j ≠ k → O.get? j = s.session.outputs.get? j) :
    s.Spares id n { s with session := { s.session with loaded := L, outputs := O } } :=
  ⟨Nat.le_refl _, fun _ _ => rfl, rfl, fun j hj => hL j (hk j hj), fun j hj => hO j (hk j hj),
    fun _ => .inl⟩

theorem mark (hk : ∀ j, j.Names id → j ≠ k) (s : State τ) : s.Spares id n (s.mark k) :=
  under hk (fun _ hj => Table.get?_insert_of_ne _ _ hj) fun _ _ => rfl

theorem unmark (hk : ∀ j, j.Names id → j ≠ k) (s : State τ) : s.Spares id n (s.unmark k) :=
  under hk (fun _ hj => Table.get?_erase_of_ne _ hj) fun _ _ => rfl

theorem keepRows (hk : ∀ j, j.Names id → j ≠ k) (vs : List Value) (s : State τ) :
    s.Spares id n (s.keepRows k vs) :=
  under hk (fun _ hj => Table.get?_insert_of_ne _ _ hj) fun _ _ => rfl

end Spares

/-- The parameter object of a procedure call is kept for one key at most. -/
theorem keepOutputs_get? (q : Query) (k : Key) (s : State τ) :
    ∃ O, s.keepOutputs q k = { s with session := { s.session with outputs := O } } ∧
      ∀ j, j ≠ k → O.get? j = s.session.outputs.get? j := by
  rw [keepOutputs]
  repeat' split
  · exact ⟨_, rfl, fun j hj => Table.get?_insert_of_ne _ _ hj⟩
  all_goals exact ⟨_, rfl, fun _ _ => rfl⟩

theorem Spares.keepOutputs {id : String} {n : Nat} {k : Key} (hk : ∀ j, j.Names id → j ≠ k)
    (q : Query) (s : State τ) : s.Spares id n (s.keepOutputs q k) := by
  obtain ⟨O, hkeep, hO⟩ := s.keepOutputs_get? q k
  rw [hkeep]
  exact .under hk (fun _ _ => rfl) hO

/-- Nothing is restored for a query that sets no parameters. -/
theorem Spares.restoreOutputs {id : String} {n : Nat} {q : Query} (hq : q.Apart id) (k : Key)
    (s : State τ) : s.Spares id n (s.restoreOutputs q k) := by
  obtain ⟨h, hrestore, hsize, hrecord⟩ := Ledger.restoreOutputs_sets q k s
  rw [hrestore]
  exact .of_own rfl (Nat.le_of_eq hsize.symm) fun o _ => hrecord o (hq.sets o)

theorem Spares.flush {id : String} {n : Nat} (st : Statement) (s : State τ) :
    s.Spares id n (s.flush st) := by
  obtain ⟨bs, hflush⟩ := s.flush_buffers st
  exact .of_heap (own_flush st s) (by rw [hflush]; rfl)

theorem Spares.read {id : String} {n : Nat} (r : CacheRef) (k : Key) (s : State τ)
    (hn : n ≤ s.heap.size) : s.Spares id n (s.readShared r k).2 :=
  .of_grows rfl (Buffers.grows_get s.world.now s.world.heap r k s.session.buffers s.world.pool) hn

theorem Spares.leave {id : String} {n : Nat} {s t : State τ} (h : s.enter.Spares id n t) :
    s.Spares id n t.leave := by
  have hdepth : t.session.depth = s.session.depth + 1 := h.depth
  refine ⟨h.size_le, h.record?, ?_, h.loaded, h.outputs, h.waits⟩
  change t.session.depth - 1 = s.session.depth
  omega

end State

namespace Session.Deferred

/-- Setting a property that waits changes only its object. -/
theorem record?_load (d : Session.Deferred) (L : Entries) (h : Heap) {p : ObjId}
    (hp : p ≠ d.object) : (d.load L h).2.record? p = h.record? p := by
  rw [load]
  split
  · rfl
  · split
    · exact Heap.record?_write_of_ne h _ _ hp
    · rfl

theorem size_load (d : Session.Deferred) (L : Entries) (h : Heap) :
    (d.load L h).2.size = h.size := by
  rw [load]
  split
  · rfl
  · split
    · exact Heap.size_write h _ _ _
    · rfl

/-- Setting all that waits changes only the objects of what waits. -/
theorem record?_loadAll (L : Entries) {ds : List Session.Deferred} {p : ObjId}
    (hds : ∀ d ∈ ds, p ≠ d.object) (h : Heap) :
    (loadAll L ds h).2.record? p = h.record? p := by
  induction ds generalizing h with
  | nil => rfl
  | cons d ds ih =>
    obtain ⟨hd, hds⟩ := List.forall_mem_cons.1 hds
    have hload := d.record?_load L h hd
    rw [loadAll]
    generalize d.load L h = x at hload
    obtain ⟨f | _, i⟩ := x
    · exact hload
    · exact (ih hds i).trans hload

end Session.Deferred

/-- In the end only objects are changed that something waits for. -/
theorem State.record?_drain {n : Nat} {s : State τ}
    (hwaits : ∀ d ∈ s.session.deferred, n ≤ d.object.index) {o : ObjId} (ho : o.index < n) :
    s.drain.2.heap.record? o = s.heap.record? o := by
  refine Session.Deferred.record?_loadAll _ (fun d hd => ?_) _
  rintro rfl
  exact Nat.not_le.2 ho (hwaits d hd)

open State

theorem State.Spares.defer {id : String} {n : Nat} {d : Session.Deferred}
    (hd : n ≤ d.object.index) (s : State τ) : s.Spares id n (s.defer d).2 := by
  rw [State.defer]
  split
  · exact .refl id n s
  · split
    · refine .of_own rfl (Nat.le_of_eq (d.size_load _ _).symm) fun p hp => ?_
      refine d.record?_load _ _ ?_
      rintro rfl
      exact Nat.not_le.2 hp hd
    · refine ⟨Nat.le_refl _, fun _ _ => rfl, rfl, fun _ _ => rfl, fun _ _ => rfl, fun e he => ?_⟩
      obtain he | he := List.mem_append.1 he
      · exact .inl he
      · obtain rfl := List.mem_singleton.1 he
        exact .inr hd

section Tree

variable {H : ComponentHash} {D : DataSource τ} {ns : String → List NestedSelect} {id : String}
  {n : Nat} {handled : Bool} {q : Query} {k : Key} {s t : State τ} {reply : Reply}
  {nested : Answering τ}

/-- Queries inside others that run other statements, under keys of these. -/
def Answering.Spares (id : String) (n : Nat) (nested : Answering τ) : Prop :=
  ∀ q k s reply t, q.Apart id → k.Names q.statement.id → 0 < s.session.depth →
    n ≤ s.heap.size → nested q k false s = some (reply, t) → s.Spares id n t

theorem spares_fill (hn : nested.Spares id n) {m : NestedSelect} {o : ObjId}
    (hm : ∀ h, (m.query o h).Apart id) (ho : n ≤ o.index) {r : Result Unit}
    (hdepth : 0 < s.session.depth) (hsize : n ≤ s.heap.size)
    (h : (m.fill o).run (.nested H D ns) nested s = some (r, t)) : s.Spares id n t := by
  rw [NestedSelect.run_fill] at h
  split at h
  · cases h
    exact .refl id n s
  · dsimp only at h
    split at h
    · obtain rfl : (s.defer _).2 = t := congrArg Prod.snd (Option.some.inj h)
      exact .defer ho s
    · obtain ⟨⟨reply, u⟩, hanswer, hsettle⟩ := Option.map_eq_some_iff.1 h
      have hnames := Query.head?_components_keyOf H s.heap s.session.config (m.query o s.heap)
      have hu : s.Spares id n u := hn _ _ s reply u (hm s.heap) hnames hdepth hsize hanswer
      rw [NestedSelect.settle] at hsettle
      split at hsettle
      · cases hsettle
        exact hu
      · cases hsettle
        exact hu.trans (.write ho _ _ u)

theorem spares_fillAll (hn : nested.Spares id n) {ms : List NestedSelect} {o : ObjId}
    (hms : ∀ m ∈ ms, ∀ h, (m.query o h).Apart id) (ho : n ≤ o.index) {r : Result Unit}
    (hdepth : 0 < s.session.depth) (hsize : n ≤ s.heap.size)
    (h : (NestedSelect.fillAll o ms).run (.nested H D ns) nested s = some (r, t)) :
    s.Spares id n t := by
  induction ms generalizing s with
  | nil =>
    cases h
    exact .refl id n _
  | cons m ms ih =>
    rw [NestedSelect.run_fillAll_cons] at h
    obtain ⟨⟨x, u⟩, hfill, hrest⟩ := Option.bind_eq_some_iff.1 h
    have hu := spares_fill hn (hms m List.mem_cons_self) ho hdepth hsize hfill
    cases x with
    | error f =>
      cases hrest
      exact hu
    | ok _ =>
      have hdepth' : 0 < u.session.depth := by rwa [hu.depth]
      have ht := ih (fun m hm => hms m (List.mem_cons_of_mem _ hm)) hdepth'
        (Nat.le_trans hsize hu.size_le) hrest
      exact hu.trans ht

theorem spares_objects (hn : nested.Spares id n) {ms : List NestedSelect}
    (hms : ∀ m ∈ ms, ∀ o h, (m.query o h).Apart id) (rs : List Record) {r : Result (List Value)}
    (hdepth : 0 < s.session.depth) (hsize : n ≤ s.heap.size)
    (h : (NestedSelect.objects ms rs).run (.nested H D ns) nested s = some (r, t)) :
    s.Spares id n t := by
  induction rs generalizing s r t with
  | nil =>
    cases h
    exact .refl id n _
  | cons row rs ih =>
    rw [NestedSelect.run_objects_cons] at h
    obtain ⟨⟨x, u⟩, hfill, hrest⟩ := Option.bind_eq_some_iff.1 h
    have hnew : s.Spares id n (s.withHeap (s.heap.alloc row).2) :=
      .of_grows rfl (Heap.grows_alloc s.heap row) hsize
    have hu := hnew.trans <| spares_fillAll (s := s.withHeap (s.heap.alloc row).2) hn
      (fun m hm => hms m hm _) hsize hdepth (Nat.le_trans hsize hnew.size_le) hfill
    cases x with
    | error f =>
      cases hrest
      exact hu
    | ok _ =>
      have hdepth' : 0 < u.session.depth := by rwa [hu.depth]
      obtain ⟨⟨y, v⟩, hobjects, hcons⟩ := Option.map_eq_some_iff.1 hrest
      cases hcons
      exact hu.trans (ih hdepth' (Nat.le_trans hsize hu.size_le) hobjects)

/-- When the data source has answered, rows become objects. -/
theorem spares_load (hn : nested.Spares id n) (hns : NestedSelect.Apart id ns)
    (hdepth : 0 < s.session.depth) {rows : Result (List Record)} {h' : Heap} {x : τ}
    (hquery : D.query q.statement q.binding q.param q.window s.heap s.world.source = (rows, h', x))
    (hsize : n ≤ h'.size) (h : s.load (.nested H D ns) nested q handled = some (reply, t)) :
    State.Spares id n { s with world := { s.world with heap := h', source := x } } t := by
  have hquery' : (Env.nested H D ns).source.query q.statement q.binding q.param q.window s.heap
      s.world.source = (rows, h', x) := hquery
  rw [State.load, hquery'] at h
  cases rows with
  | error f =>
    cases h
    exact .refl id n _
  | ok rows =>
    obtain ⟨⟨r, u⟩, hrun, hreply⟩ := Option.map_eq_some_iff.1 h
    have hu := spares_objects (s := { s with world := { s.world with heap := h', source := x } })
      hn (fun m hm o h => hns.query hm o h) rows hdepth hsize hrun
    cases r <;> cases hreply <;> exact hu

variable (hD : D.Leaves)

include hD

/-- A query that sets no parameters leaves the objects that were there. -/
theorem spares_load_apart (hn : nested.Spares id n) (hns : NestedSelect.Apart id ns)
    (hq : q.Apart id) (hdepth : 0 < s.session.depth) (hsize : n ≤ s.heap.size)
    (h : s.load (.nested H D ns) nested q handled = some (reply, t)) : s.Spares id n t := by
  have hle := hD.size_le q s.heap s.world.source
  have hrecord := fun o ho => hD.record? q s.heap s.world.source o ho (hq.sets o)
  cases hquery : D.query q.statement q.binding q.param q.window s.heap s.world.source with
  | mk rows y =>
    obtain ⟨h', x⟩ := y
    rw [hquery] at hle hrecord
    have hasked : s.Spares id n { s with world := { s.world with heap := h', source := x } } :=
      .of_own rfl hle fun o ho => hrecord o (Nat.lt_of_lt_of_le ho hsize)
    exact hasked.trans (spares_load hn hns hdepth hquery (Nat.le_trans hsize hle) h)

theorem spares_fetch (hn : nested.Spares id n) (hns : NestedSelect.Apart id ns)
    (hq : q.Apart id) (hk : ∀ j, j.Names id → j ≠ k) (hdepth : 0 < s.session.depth)
    (hsize : n ≤ s.heap.size)
    (h : s.fetch (.nested H D ns) nested q k handled = some (reply, t)) : s.Spares id n t := by
  have hload : ∀ u, (s.mark k).load (.nested H D ns) nested q handled = some (reply, u) →
      s.Spares id n (u.unmark k) := fun u hu =>
    ((State.Spares.mark hk s).trans
      (spares_load_apart (s := s.mark k) hD hn hns hq hdepth hsize hu)).trans (.unmark hk u)
  cases hresult : reply.result with
  | error f =>
    obtain ⟨u, hu, rfl⟩ := State.fetch_error h hresult
    exact hload u hu
  | ok vs =>
    obtain ⟨u, hu, rfl⟩ := State.fetch_ok h hresult
    cases handled with
    | true => exact (hload u hu).trans (.keepOutputs hk q _)
    | false => exact ((hload u hu).trans (.keepRows hk vs _)).trans (.keepOutputs hk q _)

theorem spares_inside (hn : nested.Spares id n) (hns : NestedSelect.Apart id ns)
    (hq : q.Apart id) (hk : ∀ j, j.Names id → j ≠ k) (hdepth : 0 < s.session.depth)
    (hsize : n ≤ s.heap.size)
    (h : s.inside (.nested H D ns) nested q k handled = some (reply, t)) : s.Spares id n t := by
  obtain ⟨⟨a, u⟩, hlookup, hreply⟩ := Option.map_eq_some_iff.1 h
  cases hreply
  rw [opened_of_pos q hdepth] at hlookup
  apply State.Spares.leave
  cases State.looked_of_lookup hlookup with
  | reentered _ _ => exact .refl id n _
  | held _ _ _ => exact .restoreOutputs hq k _
  | loaded _ _ hfetch =>
    exact spares_fetch (s := s.enter) hD hn hns hq hk (Nat.succ_pos _) hsize hfetch

theorem spares_answerLocal (hn : nested.Spares id n) (hns : NestedSelect.Apart id ns)
    (hq : q.Apart id) (hk : ∀ j, j.Names id → j ≠ k) (hdepth : 0 < s.session.depth)
    (hsize : n ≤ s.heap.size)
    (h : s.answerLocal (.nested H D ns) nested q k handled = some (reply, t)) :
    s.Spares id n t := by
  rw [State.answerLocal_eq] at h
  obtain ⟨⟨a, u⟩, hinside, hending⟩ := Option.map_eq_some_iff.1 h
  have hu := spares_inside hD hn hns hq hk hdepth hsize hinside
  -- a query runs around this one, so nothing is left to do
  rw [State.ending, if_pos (by rwa [hu.depth])] at hending
  cases hending
  exact hu

theorem spares_answerShared {r : CacheRef} (hn : nested.Spares id n)
    (hns : NestedSelect.Apart id ns) (hq : q.Apart id) (hk : ∀ j, j.Names id → j ≠ k)
    (hdepth : 0 < s.session.depth) (hsize : n ≤ s.heap.size)
    (h : s.answerShared (.nested H D ns) nested r q k = some (reply, t)) : s.Spares id n t := by
  rw [State.answerShared] at h
  split at h
  · cases h
    exact .refl id n _
  · have hread : s.Spares id n (s.readShared r k).2 := .read r k s hsize
    generalize s.readShared r k = x at h hread
    obtain ⟨f | e, u⟩ := x
    · cases h
      exact hread
    · dsimp only at h
      split at h
      · cases h
        exact hread
      · obtain ⟨⟨a, v⟩, hlocal, hreply⟩ := Option.map_eq_some_iff.1 h
        have hdepth' : 0 < u.session.depth := by rwa [hread.depth]
        have hv := hread.trans <| spares_answerLocal hD hn hns hq hk hdepth'
          (Nat.le_trans hsize hread.size_le) hlocal
        dsimp only at hreply
        split at hreply
        · cases hreply
          exact hv.trans (.of_heap rfl rfl)
        · cases hreply
          exact hv.trans (.of_heap rfl rfl)

/-- However deep queries nest, those of other statements spare what belongs to the statement. -/
theorem spares_answer (hns : NestedSelect.Apart id ns) (limit : Nat) :
    ((Env.nested H D ns).answer limit).Spares id n := by
  induction limit with
  | zero =>
    intro q k s reply t _ _ _ _ h
    cases h
  | succ limit ih =>
    intro q k s reply t hq hnames hdepth hsize h
    have hk : ∀ j, j.Names id → j ≠ k := by
      rintro j hj rfl
      exact hq.other (hnames.unique hj)
    rw [Env.answer, State.answerOnce] at h
    split at h
    · cases h
      exact .refl id n _
    · split at h
      · exact spares_answerLocal hD ih hns hq hk hdepth hsize h
      · have hflush : s.Spares id n (s.flush q.statement) := .flush q.statement s
        have hdepth' : 0 < (s.flush q.statement).session.depth := by rwa [hflush.depth]
        have hsize' := Nat.le_trans hsize hflush.size_le
        dsimp only at h
        split at h
        · exact hflush.trans (spares_answerLocal hD ih hns hq hk hdepth' hsize' h)
        · exact hflush.trans (spares_answerShared hD ih hns hq hk hdepth' hsize' h)

end Tree
end ResultCache
