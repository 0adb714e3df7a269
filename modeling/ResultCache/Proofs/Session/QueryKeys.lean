import ResultCache.Proofs.Session.Constant

/-!
# What a key tells of a query

The key of a query lists the id of the statement, the rows wanted, the text, the frozen values that
go in and, at the end, the environment if there is one. `Binding.Binds` says what value goes in for
a parameter: one that is bound beside the caller's parameter comes first, then the property of the
object that this is, or it itself if it is no object; what is missing is null.

Where the environment begins cannot be seen from the list, unless it is known how many values go in.
So for queries with the same number of them the keys agree exactly if each of these parts does,
whichever sessions make the keys and at whatever times (`key_identifies_query`). Nothing else of the
caller's parameter is in the key: not what goes out, nor whether it is an object and which one.
-/
namespace ResultCache

namespace Binding

/-- The value that a name is bound to. -/
inductive Binds (b : Binding) (h : Heap) (param : Value) (name : String) : Value → Prop
  | additional {v : Value} (hv : b.additional.get? name = some v) : Binds b h param name v
  | property {o : ObjId} {v : Value} (hnone : b.additional.get? name = none)
    (hparam : param = .object o) (hv : h.read o name = some v) : Binds b h param name v
  | missing {o : ObjId} (hnone : b.additional.get? name = none) (hparam : param = .object o)
    (hv : h.read o name = none) : Binds b h param name .null
  | itself (hnone : b.additional.get? name = none) (hparam : param.object? = none) :
    Binds b h param name param

/-- The names of the parameters that go in, in order. -/
def inputNames (b : Binding) : List String :=
  (b.parameters.filter (·.direction ≠ .output)).map (·.name)

variable {b : Binding} {h : Heap} {param v : Value}

/-- A name is bound to one value, the one that the parameter resolves to. -/
theorem binds_iff {p : Parameter} : b.Binds h param p.name v ↔ b.resolve h p param = v := by
  unfold resolve
  constructor
  · intro hv
    cases hv with
    | additional hv => simp only [hv]
    | property hnone hparam hv => simp only [hnone, hparam, hv, Value.ofOption]
    | missing hnone hparam hv => simp only [hnone, hparam, hv, Value.ofOption]
    | itself hnone hparam =>
      simp only [hnone]
      cases param with
      | object o => cases hparam
      | _ => rfl
  · rintro rfl
    cases hadd : b.additional.get? p.name with
    | some w => exact .additional hadd
    | none =>
      cases param with
      | object o =>
        dsimp only
        cases hread : h.read o p.name with
        | some w => exact .property hadd rfl hread
        | none => exact .missing hadd rfl hread
      | _ => exact .itself hadd rfl

/-- The names of what goes in are bound to one list of values. -/
theorem forall₂_binds_iff {vs : List Value} :
    List.Forall₂ (b.Binds h param) b.inputNames vs ↔ b.inputs h param = vs := by
  rw [← List.forall₂_eq_eq_eq, inputNames, inputs, List.forall₂_map_left_iff,
    List.forall₂_map_left_iff]
  simp only [binds_iff]

theorem length_inputs (b : Binding) (h : Heap) (param : Value) :
    (b.inputs h param).length = b.inputNames.length := by
  simp [inputNames, inputs]

end Binding

namespace Asking

variable {H : ComponentHash} {a b : Asking}

/-- If it is known how many values go in, keys tell all parts of askings apart. -/
theorem key_eq_iff_of_length (hlen : a.inputs.length = b.inputs.length) :
    a.key H = b.key H ↔ a.id = b.id ∧ a.window = b.window ∧ a.sql = b.sql ∧
      a.environment = b.environment ∧ a.inputs = b.inputs := by
  have htext : (Frozen.text).Injective := fun s t he => Frozen.text.inj he
  rw [key_eq_iff]
  constructor
  · intro he
    obtain ⟨hinputs, henvironment⟩ := List.append_inj (congrArg (·.inputs) he) hlen
    refine ⟨congrArg (·.id) he, congrArg (·.window) he, congrArg (·.sql) he, ?_, hinputs⟩
    simpa using congrArg List.head? (htext.list_map henvironment)
  · rintro ⟨hid, hwindow, hsql, henvironment, hinputs⟩
    rw [flat, flat, hid, hwindow, hsql, hinputs, henvironment]

end Asking

theorem Window.eq_iff {w w' : Window} : w = w' ↔ w.offset = w'.offset ∧ w.limit = w'.limit := by
  cases w
  cases w'
  rw [mk.injEq]

theorem Query.keyOf_eq_iff_of_length {H : ComponentHash} {h h' : Heap} {c c' : Session.Config}
    {q q' : Query} (hlen : q.binding.inputNames.length = q'.binding.inputNames.length) :
    Session.keyOf H h c q = Session.keyOf H h' c' q' ↔
      q.statement.id = q'.statement.id ∧ q.window = q'.window ∧ q.binding.sql = q'.binding.sql ∧
        c.environment = c'.environment ∧
        (q.binding.inputs h q.param).map h.freeze =
          (q'.binding.inputs h' q'.param).map h'.freeze := by
  have hinputs : ((q.binding.inputs h q.param).map h.freeze).length =
      ((q'.binding.inputs h' q'.param).map h'.freeze).length := by
    rw [List.length_map, List.length_map, Binding.length_inputs, Binding.length_inputs, hlen]
  rw [keyOf_eq, keyOf_eq]
  exact Asking.key_eq_iff_of_length hinputs

/-- The key of a query in an open session. -/
theorem State.key_of_open {τ : Type} {s : State τ} (hs : s.session.closed = false)
    (H : ComponentHash) (q : Query) :
    s.key H q = .ok (Session.keyOf H s.heap s.session.config q) := by
  rw [key, Session.ensureOpen, hs]
  rfl

/-- Two queries with the same number of values that go in have the same key exactly if the
statements have the same id, the same rows are wanted, the texts and the environments are the same,
and so are the frozen values that go in. -/
theorem key_identifies_query {τ₁ τ₂ : Type} (H : ComponentHash) (s₁ : State τ₁) (s₂ : State τ₂)
    (q₁ q₂ : Query) (h₁ : s₁.session.closed = false) (h₂ : s₂.session.closed = false)
    (hlen : q₁.binding.inputNames.length = q₂.binding.inputNames.length) :
    ∃ k₁ k₂ vs₁ vs₂, s₁.key H q₁ = .ok k₁ ∧ s₂.key H q₂ = .ok k₂ ∧
      List.Forall₂ (q₁.binding.Binds s₁.heap q₁.param) q₁.binding.inputNames vs₁ ∧
      List.Forall₂ (q₂.binding.Binds s₂.heap q₂.param) q₂.binding.inputNames vs₂ ∧
      (k₁ = k₂ ↔ q₁.statement.id = q₂.statement.id ∧ q₁.window.offset = q₂.window.offset ∧
        q₁.window.limit = q₂.window.limit ∧ q₁.binding.sql = q₂.binding.sql ∧
        s₁.session.config.environment = s₂.session.config.environment ∧
        vs₁.map s₁.heap.freeze = vs₂.map s₂.heap.freeze) := by
  refine ⟨_, _, _, _, s₁.key_of_open h₁ H q₁, s₂.key_of_open h₂ H q₂,
    Binding.forall₂_binds_iff.2 rfl, Binding.forall₂_binds_iff.2 rfl, ?_⟩
  rw [Query.keyOf_eq_iff_of_length hlen, Window.eq_iff, and_assoc]

/-- A procedure that counts the books of an author. -/
def countCall : Statement :=
  { Statement.make .select "A.count" "CALL count(?, ?)" with
    parameters := [⟨"id", .input⟩, ⟨"total", .output⟩] }

/-- An author whose books were counted before. -/
def counted : Heap := (Heap.empty.alloc (.ofList [("id", .int 1), ("total", .int 7)])).2

/-- The author may be given by its number or as an object, counted before or not. -/
theorem key_identifies_query_counted :
    ∃ k, State.key flatHash (.ofStatement countCall (.int 1) .unbounded)
          ⟨.ofConfig .standard, ⟨.empty, .empty, 0, ()⟩⟩ = .ok k ∧
      State.key flatHash (.ofStatement countCall (.object ⟨0⟩) .unbounded)
          ⟨.ofConfig .standard, ⟨counted, .empty, 0, ()⟩⟩ = .ok k := by
  obtain ⟨k₁, k₂, vs₁, vs₂, hk₁, hk₂, hvs₁, hvs₂, hkeys⟩ :=
    key_identifies_query flatHash ⟨.ofConfig .standard, ⟨.empty, .empty, 0, ()⟩⟩
      ⟨.ofConfig .standard, ⟨counted, .empty, 0, ()⟩⟩ (.ofStatement countCall (.int 1) .unbounded)
      (.ofStatement countCall (.object ⟨0⟩) .unbounded) rfl rfl rfl
  have hone : ∀ h : Heap, h.freeze (.int 1) = .int 1 := fun h => by
    rw [Heap.freeze, Heap.freezeAlong]
  obtain rfl : [.int 1] = vs₁ := Binding.forall₂_binds_iff.1 hvs₁
  obtain rfl : [.int 1] = vs₂ := Binding.forall₂_binds_iff.1 hvs₂
  have hfrozen : [Value.int 1].map Heap.empty.freeze = [Value.int 1].map counted.freeze := by
    simp only [List.map_cons, List.map_nil, hone]
  obtain rfl := hkeys.2 ⟨rfl, rfl, rfl, rfl, rfl, hfrozen⟩
  exact ⟨k₁, hk₁, hk₂⟩

end ResultCache
