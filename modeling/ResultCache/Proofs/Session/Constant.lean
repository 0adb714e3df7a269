import ResultCache.Proofs.Session.History
import ResultCache.Proofs.Session.Nested
import ResultCache.Proofs.Value.Renaming

/-!
# Data sources that always say the same

A data source that does not change may still make new objects for every answer. So two answers to
one question are the same up to the identities of these objects (`Told.Alike`), while objects that
were there before all queries are the same in all answers (`DataSource.Constant`).

A question is what a key is made of, without the environment (`Query.asked`): two queries of
sessions that are configured alike have one key exactly if they ask the same (`keyOf_eq_iff`). It
depends on the parameter only up to renaming (`Heap.Renaming.asked_eq`).
-/
namespace ResultCache

/-- What a query asks for. -/
def Query.asked (q : Query) (h : Heap) : Asking :=
  ⟨q.statement.id, q.window, q.binding.sql, (q.binding.inputs h q.param).map h.freeze, none⟩

theorem Query.keyOf_eq (H : ComponentHash) (h : Heap) (c : Session.Config) (q : Query) :
    Session.keyOf H h c q = Asking.key H { q.asked h with environment := c.environment } := by
  have htext : ∀ s : String, h.freeze (.text s) = .text s := fun s => by
    rw [Heap.freeze, Heap.freezeAlong]
  have hint : ∀ n : Int64, h.freeze (.int n) = .int n := fun n => by
    rw [Heap.freeze, Heap.freezeAlong]
  rw [Session.keyOf, Asking.key, Asking.components, Asking.flat, asked]
  simp [htext, hint, Function.comp_def]

/-- Within one configuration, keys tell questions apart. -/
theorem Query.keyOf_eq_iff {H : ComponentHash} {h h' : Heap} {c : Session.Config} {q q' : Query} :
    Session.keyOf H h c q = Session.keyOf H h' c q' ↔ q.asked h = q'.asked h' := by
  rw [keyOf_eq, keyOf_eq, Asking.key_eq_iff]
  refine ⟨fun he => ?_, fun he => by rw [he]⟩
  have hid : (q.asked h).id = (q'.asked h').id := congrArg (·.id) he
  have hwindow : (q.asked h).window = (q'.asked h').window := congrArg (·.window) he
  have hsql : (q.asked h).sql = (q'.asked h').sql := congrArg (·.sql) he
  have hinputs := List.append_cancel_right (congrArg (·.inputs) he)
  rw [asked, asked, Asking.mk.injEq]
  exact ⟨hid, hwindow, hsql, hinputs, rfl⟩

/-- The first component of a key names the statement. -/
theorem Query.head?_components_keyOf (H : ComponentHash) (h : Heap) (c : Session.Config)
    (q : Query) : (Session.keyOf H h c q).components.head? = some (.text q.statement.id) := by
  rw [keyOf_eq, Asking.key, Key.ofComponents, Key.components_appendAll]
  rfl

/-- Bindings of the same text and parameters, with alike values beside the caller's parameter. -/
structure Binding.Alike (ρ : ObjId → ObjId → Prop) (b b' : Binding) : Prop where
  sql : b'.sql = b.sql
  parameters : b'.parameters = b.parameters
  additional : Record.Alike ρ b.additional b'.additional

/-- Queries that differ in nothing but the objects that they name, which are paired. -/
structure Query.Alike (ρ : ObjId → ObjId → Prop) (q q' : Query) : Prop where
  statement : q'.statement = q.statement
  param : q.param.Alike ρ q'.param
  window : q'.window = q.window
  binding : q.binding.Alike ρ q'.binding

theorem Query.alike_ofStatement {ρ : ObjId → ObjId → Prop} (st : Statement) {v w : Value}
    (hvw : v.Alike ρ w) (window : Window) :
    (Query.ofStatement st v window).Alike ρ (.ofStatement st w window) :=
  ⟨rfl, hvw, rfl, rfl, rfl, fun _ => .none⟩

namespace Heap.Renaming

variable {ρ : ObjId → ObjId → Prop} {h h' : Heap} (hρ : Heap.Renaming ρ h h')
include hρ

/-- A parameter is bound to alike values if the caller's parameters are alike. -/
theorem alike_resolve {b b' : Binding} (hb : b.Alike ρ b') {v w : Value} (hvw : v.Alike ρ w)
    (p : Parameter) : (b.resolve h p v).Alike ρ (b'.resolve h' p w) := by
  unfold Binding.resolve
  have hadd := hb.additional p.name
  generalize b.additional.get? p.name = x, b'.additional.get? p.name = y at hadd
  cases hadd with
  | some hxy => exact hxy
  | none =>
    cases hvw with
    | object ho => exact Value.alike_ofOption (hρ.read ho p.name)
    | null => exact .null
    | bool b => exact .bool b
    | int n => exact .int n
    | float b => exact .float b
    | text s => exact .text s
    | bytes bs => exact .bytes bs
    | list hlen hvs => exact .list hlen hvs

/-- Alike queries ask the same. -/
theorem asked_eq_of_alike {q q' : Query} (hq : q.Alike ρ q') : q'.asked h' = q.asked h := by
  have hinputs : (q'.binding.inputs h' q'.param).map h'.freeze =
      (q.binding.inputs h q.param).map h.freeze := by
    rw [Binding.inputs, Binding.inputs, List.map_map, List.map_map, hq.binding.parameters]
    exact List.map_congr_left fun p _ =>
      hρ.freeze_eq (hρ.alike_resolve hq.binding hq.param p)
  rw [Query.asked, Query.asked, hq.statement, hq.window, hq.binding.sql, hinputs]

/-- A statement asks the same with alike parameters. -/
theorem asked_eq (st : Statement) {v w : Value} (hvw : v.Alike ρ w) (window : Window) :
    (Query.ofStatement st w window).asked h' = (Query.ofStatement st v window).asked h :=
  hρ.asked_eq_of_alike (Query.alike_ofStatement st hvw window)

end Heap.Renaming

/-- Answering the query may set properties of the object. -/
def Query.Sets (q : Query) (o : ObjId) : Prop :=
  q.statement.isCallable ∧ Statement.setsParameters q.binding ∧ q.param = .object o

/-- Whether a value names no object and has no members. -/
def Value.isScalar : Value → Bool
  | .list _ | .object _ => false
  | _ => true

def Record.isScalar (r : Record) : Bool := r.entries.all fun p => p.2.isScalar

theorem Record.not_refers {r : Record} (hr : r.isScalar) {p : String × Value}
    (hp : p ∈ r.entries) (o : ObjId) : ¬ p.2.Refers o := by
  have hscalar := List.all_eq_true.1 hr p hp
  intro ho
  generalize p.2 = v at hscalar ho
  cases ho <;> cases hscalar

/-- Sets properties of an object to what a record has under the names of some parameters. -/
def Heap.setAll (h : Heap) (o : ObjId) (ps : List Parameter) (r : Record) : Heap :=
  ps.foldl (fun h p => h.write o p.name (.ofOption (NameMap.get? r p.name))) h

theorem Heap.size_setAll (h : Heap) (o : ObjId) (ps : List Parameter) (r : Record) :
    (h.setAll o ps r).size = h.size := by
  rw [setAll]
  induction ps generalizing h with
  | nil => rfl
  | cons q ps ih =>
    rw [List.foldl_cons, ih]
    exact size_write _ _ _ _

theorem Heap.record?_setAll (h : Heap) {o p : ObjId} (hp : p ≠ o) (ps : List Parameter)
    (r : Record) : (h.setAll o ps r).record? p = h.record? p := by
  rw [setAll]
  induction ps generalizing h with
  | nil => rfl
  | cons q ps ih =>
    rw [List.foldl_cons, ih]
    exact record?_write_of_ne _ _ _ hp

/-- The parameters that do not only go in. -/
def Query.outputs (q : Query) : List Parameter :=
  q.binding.parameters.filter (·.direction ≠ .input)

/-- Setting output parameters changes only what the query sets. -/
theorem Query.record?_setAll (q : Query) (hcall : q.statement.isCallable) {o p : ObjId}
    (ho : q.param = .object o) (r : Record) (h : Heap) (hp : ¬ q.Sets p) :
    (h.setAll o q.outputs r).record? p = h.record? p := by
  cases hps : q.outputs with
  | nil => rfl
  | cons a ps =>
    have ha : a ∈ q.outputs := hps ▸ List.mem_cons_self
    obtain ⟨hmem, hdir⟩ := List.mem_filter.1 ha
    have hsets : q.Sets o := ⟨hcall, List.any_eq_true.2 ⟨a, hmem, hdir⟩, ho⟩
    have hne : p ≠ o := fun he => by
      rw [he] at hp
      exact hp hsets
    exact Heap.record?_setAll _ hne _ _

/-- A query that the data source answered, with the objects before and after. -/
structure Told where
  query : Query
  before : Heap
  rows : List Record
  after : Heap

namespace Told

/-- The objects that were made for the answer. -/
def Made (T : Told) (o : ObjId) : Prop := T.before.Fresh T.after o

/-- The objects that the answer leads to. -/
def Reach (G : ObjId → Prop) (T : Told) (o : ObjId) : Prop := G o ∨ T.Made o

end Told

/-- The pairs of `ρ`, and every object of `G` with itself. -/
def Beside (G : ObjId → Prop) (ρ : ObjId → ObjId → Prop) (o p : ObjId) : Prop :=
  ρ o p ∨ (G o ∧ o = p)

/-- Two answers are the same up to the identities of the objects that were made for them. -/
structure Told.Alike (G : ObjId → Prop) (ρ : ObjId → ObjId → Prop) (T T' : Told) : Prop where
  made : ∀ {o p}, ρ o p → T.Made o ∧ T'.Made p
  left : ∀ {o p p'}, ρ o p → ρ o p' → p = p'
  right : ∀ {o o' p}, ρ o p → ρ o' p → o = o'
  records : ∀ {o p}, ρ o p → ∃ r r', T.after.record? o = some r ∧ T'.after.record? p = some r' ∧
    Record.Alike (Beside G ρ) r r'
  rows : List.Forall₂ (Record.Alike (Beside G ρ)) T.rows T'.rows

namespace DataSource

variable {τ : Type}

/-- The data source gives this answer, in some state. -/
def Tells (D : DataSource τ) (T : Told) : Prop :=
  ∃ t t', D.query T.query.statement T.query.binding T.query.param T.query.window T.before t =
    (.ok T.rows, T.after, t')

/-- A data source that always says the same, where the objects of `G` are as in `g`. Answers lead to
new objects and to objects of `G` only, and answering changes nothing but the parameter object of a
procedure call. -/
structure Constant (D : DataSource τ) (G : ObjId → Prop) (g : Heap) : Prop where
  closed : g.Closed G
  size_le : ∀ {T}, D.Tells T → Heap.AgreeOn G g T.before → T.before.size ≤ T.after.size
  leaves : ∀ {T}, D.Tells T → Heap.AgreeOn G g T.before → ∀ o, o.index < T.before.size →
    ¬ T.query.Sets o → T.after.record? o = T.before.record? o
  rows : ∀ {T}, D.Tells T → Heap.AgreeOn G g T.before →
    ∀ r ∈ T.rows, ∀ p ∈ r.entries, ∀ o, p.2.Refers o → T.Reach G o
  made : ∀ {T}, D.Tells T → Heap.AgreeOn G g T.before → ∀ o, T.Made o →
    ∃ r, T.after.record? o = some r ∧ ∀ p ∈ r.entries, ∀ q, p.2.Refers q → T.Reach G q
  alike : ∀ {T T'}, D.Tells T → D.Tells T' → Heap.AgreeOn G g T.before →
    Heap.AgreeOn G g T'.before → T.query.asked T.before = T'.query.asked T'.before →
    ∃ ρ, T.Alike G ρ T'

/-- A data source of rows of scalars, by the id of the statement and the values that go in,
which sets output parameters to the values of a record. -/
def ofRows (rows : String → List Frozen → List Record) (outputs : Record) : DataSource Unit where
  query st b param _ h t :=
    (.ok (rows st.id ((b.inputs h param).map h.freeze)),
      match st.isCallable, param with
      | true, .object o => h.setAll o (b.parameters.filter (·.direction ≠ .input)) outputs
      | _, _ => h, t)
  update _ _ _ h t := (.ok 0, h, t)
  commit t := (.ok (), t)
  rollback t := (.ok (), t)
  close t := t

theorem tells_ofRows {rows : String → List Frozen → List Record} {outputs : Record} {T : Told}
    (hT : (ofRows rows outputs).Tells T) :
    T.rows = rows T.query.statement.id (T.query.asked T.before).inputs ∧
      T.after.size = T.before.size ∧
      ∀ o, ¬ T.query.Sets o → T.after.record? o = T.before.record? o := by
  obtain ⟨t, t', hquery⟩ := hT
  have hrows := Except.ok.inj (congrArg Prod.fst hquery)
  have hafter : _ = T.after := congrArg (·.2.1) hquery
  refine ⟨hrows.symm, ?_⟩
  rw [← hafter]
  dsimp only [ofRows]
  split
  · rename_i o hcall ho
    exact ⟨Heap.size_setAll _ _ _ _, fun p hp => T.query.record?_setAll hcall ho _ _ hp⟩
  · exact ⟨rfl, fun _ _ => rfl⟩

theorem constant_ofRows {rows : String → List Frozen → List Record} (outputs : Record)
    (hrows : ∀ id fs, (rows id fs).all Record.isScalar) :
    (ofRows rows outputs).Constant (fun _ => False) .empty where
  closed _ ho := ho.elim
  size_le hT _ := Nat.le_of_eq (tells_ofRows hT).2.1.symm
  leaves hT _ o _ ho := (tells_ofRows hT).2.2 o ho
  rows hT _ r hr p hp o ho := by
    rw [(tells_ofRows hT).1] at hr
    exact absurd ho (Record.not_refers (List.all_eq_true.1 (hrows _ _) r hr) hp o)
  made hT _ o ho := by
    have hlt := ho.2
    rw [(tells_ofRows hT).2.1] at hlt
    exact absurd ho.1 (Nat.not_le.2 hlt)
  alike {T T'} hT hT' _ _ hasked := by
    have hsame : T'.rows = T.rows := by
      rw [(tells_ofRows hT).1, (tells_ofRows hT').1, ← hasked]
      exact congrArg (rows · _) (congrArg (·.id) hasked).symm
    refine ⟨fun _ _ => False, False.elim, False.elim, False.elim, False.elim, ?_⟩
    rw [hsame]
    refine List.forall₂_same.2 fun r hr => Record.alike_self fun p hp o ho => ?_
    rw [(tells_ofRows hT).1] at hr
    exact absurd ho (Record.not_refers (List.all_eq_true.1 (hrows _ _) r hr) hp o)

end DataSource

/-- The query that fills a property of an object made of a row. -/
def NestedSelect.forRow (n : NestedSelect) (r : Record) : Query :=
  .ofStatement n.statement (.ofOption (NameMap.get? r n.column)) .unbounded

/-- What a session without shared caches fills nested properties with: a data source that always
says the same, and nested selects of distinct properties with other columns as parameters, none of
which is a procedure call that sets properties of an object. -/
structure Scheme (τ : Type) where
  hash : ComponentHash
  source : DataSource τ
  nested : String → List NestedSelect
  config : Session.Config
  /-- the objects that were there before all queries and may be in rows -/
  shared : ObjId → Prop
  /-- a heap that has these objects -/
  given : Heap
  scope : config.scope = .session
  constant : source.Constant shared given
  names : ∀ id, ((nested id).map (·.property)).Nodup
  columns : ∀ id, ∀ n ∈ nested id, ∀ m ∈ nested id, m.property ≠ n.column
  unshared : ∀ id, ∀ n ∈ nested id, config.sharesCaches = true → n.statement.cache = none
  procedures : ∀ T, source.Tells T → ∀ n ∈ nested T.query.statement.id, ∀ r ∈ T.rows,
    ∀ o, ¬ (n.forRow r).Sets o

namespace Scheme

variable {τ : Type}

def env (W : Scheme τ) : Env τ := .nested W.hash W.source W.nested

/-- The key of a query. -/
def keyOf (W : Scheme τ) (h : Heap) (q : Query) : Key := Session.keyOf W.hash h W.config q

/-- What the data source told for a key, without changing the objects that answers share. -/
structure Answers (W : Scheme τ) (k : Key) (T : Told) : Prop where
  tells : W.source.Tells T
  agree : Heap.AgreeOn W.shared W.given T.before
  free : ∀ o, T.query.Sets o → ¬ W.shared o
  key : W.keyOf T.before T.query = k

/-- The nested selects of the rows that were told. -/
def selects (W : Scheme τ) (T : Told) : List NestedSelect := W.nested T.query.statement.id

/-- The key of the query that fills a property of an object made of a row. -/
def nestedKey (W : Scheme τ) (T : Told) (n : NestedSelect) (r : Record) : Key :=
  W.keyOf T.after (n.forRow r)

variable {W : Scheme τ} {k : Key} {T T' : Told}

theorem agreeOn_after (hT : W.Answers k T) : Heap.AgreeOn W.shared W.given T.after := by
  intro o ho
  obtain ⟨r, hr, -⟩ := W.constant.closed o ho
  have hexists : o.index < T.before.size :=
    Heap.lt_size_of_record? ((hT.agree o ho).trans hr)
  rw [W.constant.leaves hT.tells hT.agree o hexists fun hset => hT.free o hset ho, hT.agree o ho]

/-- An answer leads to nothing else. -/
theorem closed_reach (hT : W.Answers k T) : T.after.Closed (T.Reach W.shared) := by
  rintro o (ho | ho)
  · obtain ⟨r, hr, hclosed⟩ := W.constant.closed o ho
    exact ⟨r, (agreeOn_after hT o ho).trans hr, fun p hp q hq => .inl (hclosed p hp q hq)⟩
  · exact W.constant.made hT.tells hT.agree o ho

/-- Objects that answers share were there before an answer. -/
theorem not_made_of_shared (hT : W.Answers k T) {o : ObjId} (ho : W.shared o) : ¬ T.Made o := by
  obtain ⟨r, hr, -⟩ := W.constant.closed o ho
  have hexists : o.index < T.before.size := Heap.lt_size_of_record? ((hT.agree o ho).trans hr)
  exact fun hmade => absurd hmade.1 (Nat.not_le.2 hexists)

/-- The key of a nested query depends on the row only up to renaming. -/
theorem keyOf_forRow {ρ : ObjId → ObjId → Prop} {h h' : Heap} (hρ : Heap.Renaming ρ h h')
    (n : NestedSelect) {r r' : Record} (hr : r.Alike ρ r') :
    W.keyOf h' (n.forRow r') = W.keyOf h (n.forRow r) :=
  Query.keyOf_eq_iff.2 (hρ.asked_eq n.statement (Value.alike_ofOption (hr n.column)) .unbounded)

/-- The key of a nested query stays the same as long as what the answer leads to does. -/
theorem keyOf_forRow_of_agreeOn (hT : W.Answers k T) {h : Heap}
    (hh : Heap.AgreeOn (T.Reach W.shared) T.after h) (n : NestedSelect) {r : Record}
    (hr : r ∈ T.rows) : W.keyOf h (n.forRow r) = W.nestedKey T n r :=
  keyOf_forRow ((closed_reach hT).renaming hh) n
    (Record.alike_self fun p hp o ho => ⟨W.constant.rows hT.tells hT.agree r hr p hp o ho, rfl⟩)

/-- Two answers for one key are the same up to renaming. -/
theorem Answers.alike (hT : W.Answers k T) (hT' : W.Answers k T') : ∃ ρ, T.Alike W.shared ρ T' :=
  W.constant.alike hT.tells hT'.tells hT.agree hT'.agree
    (Query.keyOf_eq_iff.1 (hT.key.trans hT'.key.symm))

theorem Answers.renaming (hT : W.Answers k T) (hT' : W.Answers k T') {ρ : ObjId → ObjId → Prop}
    (hρ : T.Alike W.shared ρ T') : Heap.Renaming (Beside W.shared ρ) T.after T'.after where
  left := by
    rintro o p p' (ho | ⟨ho, rfl⟩) (ho' | ⟨ho', rfl⟩)
    · exact hρ.left ho ho'
    · exact absurd (hρ.made ho).1 (not_made_of_shared hT ho')
    · exact absurd (hρ.made ho').1 (not_made_of_shared hT ho)
    · rfl
  right := by
    rintro o o' p (ho | ⟨ho, rfl⟩) (ho' | ⟨ho', rfl⟩)
    · exact hρ.right ho ho'
    · exact absurd (hρ.made ho).2 (not_made_of_shared hT' ho')
    · exact absurd (hρ.made ho').2 (not_made_of_shared hT' ho)
    · rfl
  records := by
    rintro o p (ho | ⟨ho, rfl⟩)
    · exact hρ.records ho
    · obtain ⟨r, hr, hclosed⟩ := W.constant.closed o ho
      exact ⟨r, r, (agreeOn_after hT o ho).trans hr, (agreeOn_after hT' o ho).trans hr,
        Record.alike_self fun q hq a ha => .inr ⟨hclosed q hq a ha, rfl⟩⟩

end Scheme

end ResultCache
