import ResultCache.Proofs.Buffers
import ResultCache.Session.Query

/-!
# Rows out of a data source that does not change

`DataSource.Steady` is what a session relies on: what a query returns, if it returns, depends on the
id and the text of the statement, the rows wanted and the values that go in; the objects of the rows
exist; and nothing is changed but the parameter object of a procedure call. Failures are free.

The plain materializer makes one object of each row, which looks like the row (`made_objects`). So
the results of a load freeze to the answer of the source (`State.load_eq`).
-/
namespace ResultCache

namespace Assembly

variable {τ α β : Type} (env : Env τ) (nested : Answering τ)

/-- A program that goes on after another runs after it, unless that ends with a fault. -/
theorem run_bind (a : Assembly τ α) (f : α → Assembly τ β) (s : State τ) :
    (a.bind f).run env nested s = (a.run env nested s).bind fun p =>
      match p with
      | (.ok x, s) => (f x).run env nested s
      | (.error e, s) => some (.error e, s) := by
  induction a generalizing s with
  | done r => cases r <;> rfl
  | heap next ih => exact ih _ s
  | alloc r next ih => exact ih _ _
  | write o name v next ih => exact ih _
  | note g next ih => exact ih _
  | call c next ih =>
    rw [Assembly.bind, run, run]
    cases c.run env nested s with
    | none => rfl
    | some p => exact ih _ _

end Assembly

namespace Heap

/-- A record as it shows itself. -/
def freezeRecord (h : Heap) (r : Record) : Frozen :=
  .object (r.entries.map fun p => (p.1, h.freeze p.2))

/-- One new object for each record. -/
def allocAll : List Record → Heap → List Value × Heap
  | [], h => ([], h)
  | r :: rs, h =>
    (.object (h.alloc r).1 :: (allocAll rs (h.alloc r).2).1, (allocAll rs (h.alloc r).2).2)

/-- The objects `vs` were made of the records `rs`, which lead into `K`. -/
structure Rows (K : ObjId → Prop) (h h' : Heap) (rs : List Record) (vs : List Value) : Prop where
  grows : h.Grows h'
  sound : h'.Sound
  region : h'.Region fun o => K o ∨ h.Fresh h' o
  within : ∀ v ∈ vs, v.Within fun o => K o ∨ h.Fresh h' o
  freeze : vs.map h'.freeze = rs.map h.freezeRecord

theorem length_allocAll (rs : List Record) (h : Heap) : (allocAll rs h).1.length = rs.length := by
  induction rs generalizing h with
  | nil => rfl
  | cons r rs ih => exact congrArg (· + 1) (ih _)

variable {K : ObjId → Prop}

/-- A new object looks like its record, which does not know it. -/
theorem freeze_alloc {h : Heap} (hK : h.Region K) {r : Record} (hr : Record.Within K r) :
    (h.alloc r).2.freeze (.object (h.alloc r).1) = h.freezeRecord r := by
  have hagree := (grows_alloc h r).agreeOn hK
  have hpath : ∀ o, K o → (o ∈ [(h.alloc r).1] ↔ o ∈ []) := by
    intro o ho
    have hne : o ≠ (h.alloc r).1 := fun he => by
      have hlt := hK.exists ho
      rw [he] at hlt
      exact Nat.lt_irrefl _ hlt
    simp [hne]
  rw [Heap.freeze, freezeAlong_object (by simp) (record?_alloc_self h r), freezeRecord]
  congr 1
  refine List.map_congr_left fun p hp => ?_
  rw [freezeAlong_congr hK.closed hagree hpath fun _ => (hr.values p hp).of_refers, Heap.freeze]

theorem freezeRecord_of_grows {h h' : Heap} (hg : h.Grows h') (hK : h.Region K) {r : Record}
    (hr : Record.Within K r) : h'.freezeRecord r = h.freezeRecord r := by
  rw [freezeRecord, freezeRecord]
  congr 1
  refine List.map_congr_left fun p hp => ?_
  rw [freeze_congr hK.closed (hg.agreeOn hK) fun _ => (hr.values p hp).of_refers]

theorem rows_allocAll {h : Heap} (hs : h.Sound) (hK : h.Region K) {rs : List Record}
    (hrs : ∀ r ∈ rs, Record.Within K r) : Rows K h (allocAll rs h).2 rs (allocAll rs h).1 := by
  induction rs generalizing h with
  | nil =>
    refine ⟨.refl h, hs, ?_, fun _ hv => (by cases hv), rfl⟩
    exact hK.or h.region_fresh_self
  | cons r rs ih =>
    have hr := hrs r List.mem_cons_self
    have hgrows := grows_alloc h r
    have hrest := ih (hs.alloc (hr.known hK)) (hK.of_grows hgrows)
      fun q hq => hrs q (List.mem_cons_of_mem _ hq)
    have hfresh := fresh_trans hgrows hrest.grows
    have hself : h.Fresh (h.alloc r).2 (h.alloc r).1 :=
      ⟨Nat.le_refl _, by rw [size_alloc]; exact Nat.lt_succ_self _⟩
    have hsub : ∀ o, (K o ∨ (h.alloc r).2.Fresh (allocAll rs (h.alloc r).2).2 o) →
        K o ∨ h.Fresh (allocAll rs (h.alloc r).2).2 o :=
      fun o => Or.imp_right fun ho => (hfresh o).2 (.inr ho)
    refine ⟨hgrows.trans hrest.grows, hrest.sound, fun o ho => ?_, fun v hv => ?_, ?_⟩
    · by_cases ho' : K o ∨ (h.alloc r).2.Fresh (allocAll rs (h.alloc r).2).2 o
      · obtain ⟨q, hq, hw⟩ := hrest.region o ho'
        exact ⟨q, hq, hw.mono hsub⟩
      · have hnew : o = (h.alloc r).1 := by
          have hin : h.Fresh (h.alloc r).2 o := by
            rcases ho with ho | ho
            · exact absurd (.inl ho) ho'
            · exact ((hfresh o).1 ho).resolve_right fun hf => ho' (.inr hf)
          exact ((fresh_alloc (.refl h) r o).1 hin).resolve_left fun hf =>
            absurd hf.1 (Nat.not_le.2 hf.2)
        subst hnew
        refine ⟨r, ?_, hr.mono fun _ => .inl⟩
        rw [← record?_alloc_self h r]
        exact hrest.grows.record? _ hself.2
    · rcases List.mem_cons.1 hv with hv | hv
      · rw [hv]
        exact .object (.inr ((hfresh _).2 (.inl hself)))
      · exact (hrest.within v hv).mono hsub
    · have hhead : (allocAll rs (h.alloc r).2).2.freeze (.object (h.alloc r).1) =
          h.freezeRecord r := by
        rw [← freeze_alloc hK hr]
        refine hrest.grows.freeze_eq (hs.alloc (hr.known hK)) fun o ho => ?_
        cases ho
        exact hself.2
      have htail : rs.map (h.alloc r).2.freezeRecord = rs.map h.freezeRecord :=
        List.map_congr_left fun q hq =>
          freezeRecord_of_grows hgrows hK (hrs q (List.mem_cons_of_mem _ hq))
      rw [allocAll, List.map_cons, List.map_cons, hhead, hrest.freeze, htail]

end Heap

/-- The plain materializer makes one object of each row. -/
theorem Assembly.run_objects {τ : Type} (env : Env τ) (nested : Answering τ) (rs : List Record)
    (s : State τ) :
    (Assembly.objects rs).run env nested s =
      some (.ok (Heap.allocAll rs s.heap).1, s.withHeap (Heap.allocAll rs s.heap).2) := by
  induction rs generalizing s with
  | nil => rfl
  | cons r rs ih =>
    rw [Assembly.objects, Assembly.run]
    dsimp only
    rw [Assembly.run_bind, ih]
    rfl

/-- The rows of each query, by the id and the text of its statement, the rows wanted and the values
that go in. -/
abbrev Answer := String → String → Window → List Frozen → List Frozen

/-- Whether a run of the statement may set properties of the object. -/
def Statement.Sets (st : Statement) (param : Value) (o : ObjId) : Prop :=
  st.isCallable ∧ setsParameters st.binding ∧ param = .object o

/-- The rows that the data source holds for a query. -/
def Answer.rows (answer : Answer) (st : Statement) (param : Value) (w : Window) (h : Heap) :
    List Frozen := answer st.id st.sql w ((st.binding.inputs h param).map h.freeze)

/-- What a data source that does not change does for a query: it fails, or returns the rows it
holds. -/
structure Answer.Responds (answer : Answer) (st : Statement) (param : Value) (w : Window) (h : Heap)
    (r : Result (List Record)) (h' : Heap) : Prop where
  size_le : h.size ≤ h'.size
  unchanged : ∀ o, o.index < h.size → ¬ st.Sets param o → h'.record? o = h.record? o
  sound : h'.Sound
  rows : ∀ rs, r = .ok rs → rs.map h'.freezeRecord = answer.rows st param w h ∧
    rs.length < 2 ^ 64 ∧ ∃ K, h'.Region K ∧ ∀ q ∈ rs, Record.Within K q

/-- A data source that does not change: its answers are always the same, and updates only return a
count. -/
structure DataSource.Steady {τ : Type} (D : DataSource τ) (answer : Answer) : Prop where
  query : ∀ st param w h t, h.Sound → param.Known h →
    answer.Responds st param w h (D.query st st.binding param w h t).1
      (D.query st st.binding param w h t).2.1
  update : ∀ st param h t, (D.update st st.binding param h t).2.1 = h

/-- A statement that is run as it stands takes its values from the parameter. -/
theorem Statement.resolve_binding (st : Statement) (h : Heap) (p : Parameter) (param : Value) :
    st.binding.resolve h p param =
      match param with
      | .object o => .ofOption (h.read o p.name)
      | v => v := rfl

/-- The values that go in are those of existing objects. -/
theorem Statement.known_of_mem_inputs {st : Statement} {h : Heap} (hs : h.Sound) {param : Value}
    (hparam : param.Known h) {v : Value} (hv : v ∈ st.binding.inputs h param) : v.Known h := by
  obtain ⟨p, -, rfl⟩ := List.mem_map.1 hv
  rw [resolve_binding]
  cases param with
  | object o =>
    change (Value.ofOption (h.read o p.name)).Known h
    rw [Heap.read]
    cases hr : h.record? o with
    | none => exact Value.known_null h
    | some r => exact (hs o r hr).get? p.name
  | _ => exact hparam

theorem Statement.inputs_of_grows {st : Statement} {h h' : Heap} (hg : h.Grows h') {param : Value}
    (hparam : param.Known h) : st.binding.inputs h' param = st.binding.inputs h param := by
  refine List.map_congr_left fun p _ => ?_
  rw [resolve_binding, resolve_binding]
  cases param with
  | object o =>
    change Value.ofOption (h'.read o p.name) = Value.ofOption (h.read o p.name)
    rw [Heap.read, Heap.read, hg.record? o (hparam o .object)]
  | _ => rfl

/-- New objects do not change what a query asks for. -/
theorem Answer.rows_of_grows {answer : Answer} {st : Statement} {param : Value} {w : Window}
    {h h' : Heap} (hg : h.Grows h') (hs : h.Sound) (hparam : param.Known h) :
    answer.rows st param w h' = answer.rows st param w h := by
  rw [Answer.rows, Answer.rows, Statement.inputs_of_grows hg hparam]
  congr 1
  exact List.map_congr_left fun v hv =>
    hg.freeze_eq hs (Statement.known_of_mem_inputs hs hparam hv)

/-- Answered with right rows, if at all. -/
def Reply.Right (R : Key → List Frozen → Prop) (k : Key) (h : Heap) (reply : Reply) : Prop :=
  ∀ vs, reply.result = .ok vs → ∃ M, h.Region M ∧ (Entry.rows vs).Right R M h k

/-- What a session works with over a data source, with the plain materializer. -/
def Env.plain {τ : Type} (H : ComponentHash) (D : DataSource τ) : Env τ :=
  ⟨H, D, Materializer.rows τ⟩

namespace State

variable {τ : Type} {R : Key → List Frozen → Prop} {K : ObjId → Prop} {answer : Answer}
  {D : DataSource τ}

/-- A query that a session may be asked: its parameter exists, the source may set what it sets, and
the rows that the source holds for it are right for its key. -/
structure Asks (answer : Answer) (R : Key → List Frozen → Prop) (K : ObjId → Prop)
    (st : Statement) (param : Value) (w : Window) (k : Key) (h : Heap) : Prop where
  sound : h.Sound
  region : h.Region K
  known : param.Known h
  free : ∀ o, st.Sets param o → ¬ K o
  right : R k (answer.rows st param w h)

theorem Asks.of_grows {st : Statement} {param : Value} {w : Window} {k : Key} {h h' : Heap}
    (ha : Asks answer R K st param w k h) (hg : h.Grows h') (hs : h'.Sound) :
    Asks answer R K st param w k h' where
  sound := hs
  region := ha.region.of_grows hg
  known := ha.known.mono hg.size_le
  free := ha.free
  right := by
    rw [Answer.rows_of_grows hg ha.sound ha.known]
    exact ha.right

/-- Loading gives right rows or a fault, and touches only the heap and the source. -/
theorem load_right (hD : D.Steady answer) (H : ComponentHash) (nested : Answering τ)
    {st : Statement} {param : Value} {w : Window} {k : Key} {s : State τ}
    (ha : Asks answer R K st param w k s.heap) :
    ∃ reply h' t, s.load (.plain H D) nested (.ofStatement st param w) false =
        some (reply, { s with world := { s.world with heap := h', source := t } }) ∧
      Heap.Evolves K s.heap h' ∧ reply.Right R k h' := by
  have hresp := hD.query st param w s.heap s.world.source ha.sound ha.known
  rcases hq : D.query st st.binding param w s.heap s.world.source with ⟨r, h₁, t⟩
  rw [hq] at hresp
  have hquery : (Env.plain H D).source.query st st.binding param w s.heap s.world.source =
      (r, h₁, t) := hq
  have hsource : Heap.Evolves K s.heap h₁ := ⟨hresp.size_le,
    fun o ho => hresp.unchanged o (ha.region.exists ho) fun hset => ha.free o hset ho, hresp.sound⟩
  cases r with
  | error f =>
    refine ⟨.ofResult (.error f), h₁, t, ?_, hsource, fun vs hvs => (by cases hvs)⟩
    simp only [load, Query.ofStatement, hquery]
  | ok rs =>
    obtain ⟨hrows, hlen, M, hM, hrs⟩ := hresp.rows rs rfl
    have hmade := Heap.rows_allocAll hresp.sound hM hrs
    have hfrozen := hmade.freeze.trans hrows
    refine ⟨.ofResult (.ok (Heap.allocAll rs h₁).1), (Heap.allocAll rs h₁).2, t, ?_, ?_, ?_⟩
    · have hrun := Assembly.run_objects (Env.plain H D) nested rs
        { s with world := { s.world with heap := h₁, source := t } }
      simp only [load, Query.ofStatement, hquery]
      exact congrArg (Option.map _) hrun
    · exact hsource.trans (hmade.grows.evolves (ha.region.of_evolves hsource) hmade.sound)
    · intro vs hvs
      cases hvs
      refine ⟨_, hmade.region, _, ha.right, ?_⟩
      rw [← hfrozen]
      refine .rows hmade.within ?_
      rw [Heap.length_allocAll]
      exact hlen

end State

end ResultCache
