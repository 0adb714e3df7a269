import ResultCache.Proofs.Session.Keeping
import ResultCache.Proofs.Session.Outermost

/-!
# Nested properties inside a query

A nested result is kept as soon as it is complete but for the properties that wait. So every object
of a kept result has every nested property of its statement, or the property waits, or it was lost
before (`State.Sound`). Whatever happens inside a query keeps this so (`sound_answer`): objects keep
their properties (`State.Grows`), a property that is filled is set or waits (`builds_fill`), and what
begins to wait waits for something that is held (`State.Lasts`).
-/
namespace ResultCache

variable {τ : Type}

/-- The key belongs to the statement with the id. -/
def Key.Names (k : Key) (id : String) : Prop := k.components.head? = some (.text id)

theorem Key.Names.unique {k : Key} {id id' : String} (h : k.Names id) (h' : k.Names id') :
    id = id' := by
  rw [Names, h'] at h
  cases h
  rfl

namespace Session.Deferred

/-- One of the properties that wait is the property of the object. -/
def Fill (ds : List Session.Deferred) (o : ObjId) (name : String) : Prop :=
  ∃ d ∈ ds, d.object = o ∧ d.property = name

/-- A property that is set is there. -/
theorem has_load {d : Session.Deferred} {loaded : Entries} {h i : Heap} {vs : List Value}
    (ho : (h.record? d.object).isSome) (hvs : (loaded.get? d.key).bind Entry.results? = some vs)
    (hload : d.load loaded h = (.ok (), i)) : i.Has d.object d.property := by
  rw [load, hvs] at hload
  dsimp only at hload
  split at hload
  · cases hload
    exact Heap.has_write h ho _ _
  · cases hload

end Session.Deferred

open Session.Deferred (Fill)

namespace State

/-- Every object of a result that the session keeps exists, and has `P` for each nested property of
its statement. -/
def Whole (ns : String → List NestedSelect) (P : ObjId → String → Prop) (s : State τ) : Prop :=
  ∀ k vs id, s.session.loaded.get? k = some (.rows vs) → k.Names id → ∀ o, .object o ∈ vs →
    (s.heap.record? o).isSome ∧ ∀ n ∈ ns id, P o n.property

/-- The object has the property, or the property waits, or it was lost. -/
def Accounts (lost : List Session.Deferred) (s : State τ) (o : ObjId) (name : String) : Prop :=
  s.heap.Has o name ∨ Fill (s.session.deferred ++ lost) o name

/-- While a query runs, every nested property of a kept result is there, waits or was lost. Nothing
is kept but rows and marks. -/
structure Sound (ns : String → List NestedSelect) (lost : List Session.Deferred) (s : State τ) :
    Prop where
  whole : s.Whole ns (s.Accounts lost)
  plain : ∀ k e, s.session.loaded.get? k = some e → e = .loading ∨ ∃ vs, e = .rows vs

/-- Nothing is taken away inside a query: no property, and nothing that waits. -/
structure Grows (s t : State τ) : Prop where
  heap : s.heap.Keeps t.heap
  depth : t.session.depth = s.session.depth
  waits : ∀ d ∈ s.session.deferred, d ∈ t.session.deferred

/-- What was held is still held, and what began to wait waits for something that is held. -/
structure Lasts (s t : State τ) : Prop where
  held : ∀ k, s.session.loaded.contains k = true → t.session.loaded.contains k = true
  waits : ∀ d ∈ t.session.deferred,
    d ∈ s.session.deferred ∨ t.session.loaded.contains d.key = true

variable {s t u : State τ} {ns : String → List NestedSelect} {lost : List Session.Deferred}

theorem Grows.trans (hst : s.Grows t) (htu : t.Grows u) : s.Grows u :=
  ⟨hst.heap.trans htu.heap, htu.depth.trans hst.depth, fun d hd => htu.waits d (hst.waits d hd)⟩

theorem Lasts.trans (hst : s.Lasts t) (htu : t.Lasts u) : s.Lasts u := by
  refine ⟨fun k hk => htu.held k (hst.held k hk), fun d hd => ?_⟩
  obtain hd | hheld := htu.waits d hd
  · exact (hst.waits d hd).imp_right (htu.held d.key)
  · exact .inr hheld

theorem Accounts.mono {o : ObjId} {name : String} (h : s.Accounts lost o name) (hst : s.Grows t) :
    t.Accounts lost o name := by
  obtain hhas | ⟨d, hd, hfills⟩ := h
  · exact .inl (hst.heap.has o name hhas)
  · refine .inr ⟨d, ?_, hfills⟩
    obtain hd | hd := List.mem_append.1 hd
    · exact List.mem_append_left _ (hst.waits d hd)
    · exact List.mem_append_right _ hd

/-- What was accounted for stays so, if the session keeps no more results. -/
theorem Sound.mono (hs : s.Sound ns lost) (hst : s.Grows t)
    (hloaded : ∀ k e, t.session.loaded.get? k = some e →
      e = .loading ∨ s.session.loaded.get? k = some e) : t.Sound ns lost := by
  constructor
  · intro k vs id hk hid o ho
    obtain hmark | hbefore := hloaded k _ hk
    · cases hmark
    · obtain ⟨hexists, hprops⟩ := hs.whole k vs id hbefore hid o ho
      exact ⟨hst.heap.exist o hexists, fun n hn => (hprops n hn).mono hst⟩
  · intro k e he
    obtain hmark | hbefore := hloaded k e he
    · exact .inl hmark
    · exact hs.plain k e hbefore

/-- Objects may have more properties, and nothing else that matters to nested properties changed. -/
structure Undisturbed (s t : State τ) : Prop where
  heap : s.heap.Keeps t.heap
  loaded : t.session.loaded = s.session.loaded
  deferred : t.session.deferred = s.session.deferred
  depth : t.session.depth = s.session.depth

theorem Undisturbed.refl (s : State τ) : s.Undisturbed s := ⟨.refl _, rfl, rfl, rfl⟩

theorem Undisturbed.of_own (hheap : s.heap.Keeps t.heap)
    (hown : t.session.own = s.session.own) : s.Undisturbed t := by
  have hsession := Session.eq_of_own_eq hown
  refine ⟨hheap, ?_, ?_, ?_⟩
  all_goals rw [hsession]

theorem Undisturbed.grows (h : s.Undisturbed t) : s.Grows t :=
  ⟨h.heap, h.depth, fun d hd => by rwa [h.deferred]⟩

theorem Sound.of_undisturbed (hs : s.Sound ns lost) (h : s.Undisturbed t) : t.Sound ns lost :=
  hs.mono h.grows fun k e he => .inr (by rwa [← h.loaded])

theorem Undisturbed.lasts (h : s.Undisturbed t) : s.Lasts t :=
  ⟨fun k hk => by rwa [h.loaded], fun d hd => .inl (by rwa [← h.deferred])⟩

end State

open State

/-- What is known after something inside a query: nothing was taken away, every nested property is
accounted for, and without a fault what was held is held, unless rows were handed over. -/
structure Builds (ns : String → List NestedSelect) (lost : List Session.Deferred) (handled : Bool)
    (s : State τ) {α : Type} (r : Result α) (t : State τ) : Prop where
  grows : s.Grows t
  sound : t.Sound ns lost
  lasts : handled = false → ∀ a, r = .ok a → s.Lasts t

namespace Builds

variable {ns : String → List NestedSelect} {lost : List Session.Deferred} {handled : Bool}
  {s t u : State τ} {α β : Type} {r : Result α} {x : Result β}

theorem of_undisturbed (hs : s.Sound ns lost) (h : s.Undisturbed t) :
    Builds ns lost handled s r t :=
  ⟨h.grows, hs.of_undisturbed h, fun _ _ _ => h.lasts⟩

theorem trans {a : α} (hst : Builds ns lost handled s (.ok a) t)
    (htu : Builds ns lost handled t x u) : Builds ns lost handled s x u :=
  ⟨hst.grows.trans htu.grows, htu.sound, fun hhandled b hb =>
    (hst.lasts hhandled a rfl).trans (htu.lasts hhandled b hb)⟩

/-- What follows a fault passes it on. -/
theorem fault {f : Fault} (h : Builds ns lost handled s r t) (hx : x = .error f) :
    Builds ns lost handled s x t :=
  ⟨h.grows, h.sound, fun _ b hb => by rw [hx] at hb; cases hb⟩

end Builds

section Tree

variable {H : ComponentHash} {D : DataSource τ} {ns : String → List NestedSelect}
  {lost : List Session.Deferred} {handled : Bool} {q : Query} {k : Key} {s t : State τ}
  {reply : Reply} {nested : Answering τ}

/-- Queries inside others, under keys of their statements, account for every nested property. -/
def Answering.Sound (ns : String → List NestedSelect) (lost : List Session.Deferred)
    (nested : Answering τ) : Prop :=
  ∀ q k s reply t, k.Names q.statement.id → 0 < s.session.depth → s.Sound ns lost →
    nested q k false s = some (reply, t) → Builds ns lost false s reply.result t

/-- A property that is deferred is set or waits. -/
theorem builds_defer {d : Session.Deferred} {r : Result Unit} (hs : s.Sound ns lost)
    (hheld : s.session.loaded.contains d.key = true) (ho : (s.heap.record? d.object).isSome)
    (h : s.defer d = (r, t)) :
    Builds ns lost false s r t ∧ (r = .ok () → t.Accounts lost d.object d.property) := by
  rw [defer] at h
  split at h
  · cases h
    exact ⟨.of_undisturbed hs (.refl s), fun hr => by cases hr⟩
  · split at h
    · rename_i hcan
      -- what is held for the key is no mark, so it is rows
      have hresults : ∃ vs, (s.session.loaded.get? d.key).bind Entry.results? = some vs := by
        obtain ⟨e, he⟩ := Option.isSome_iff_exists.1 hheld
        rw [Session.Deferred.canLoad, he] at hcan
        obtain rfl | ⟨vs, rfl⟩ := hs.plain d.key e he
        · cases hcan
        · exact ⟨vs, by rw [he]; rfl⟩
      obtain ⟨vs, hvs⟩ := hresults
      have hkeeps := d.keeps_load s.session.loaded s.heap
      cases hload : d.load s.session.loaded s.heap with
      | mk x i =>
        rw [hload] at h hkeeps
        cases h
        refine ⟨.of_undisturbed hs ⟨hkeeps, rfl, rfl, rfl⟩, fun hr => .inl ?_⟩
        subst hr
        exact Session.Deferred.has_load ho hvs hload
    · cases h
      have hgrows : s.Grows { s with
          session := { s.session with deferred := s.session.deferred ++ [d] } } :=
        ⟨.refl _, rfl, fun e he => List.mem_append_left _ he⟩
      refine ⟨⟨hgrows, hs.mono hgrows fun _ _ => .inr, fun _ _ _ => ⟨fun _ => id, ?_⟩⟩,
        fun _ => .inr ⟨d, by simp, rfl, rfl⟩⟩
      intro e he
      obtain he | he := List.mem_append.1 he
      · exact .inl he
      · obtain rfl := List.mem_singleton.1 he
        exact .inr hheld

/-- A nested property that is filled is set or waits. -/
theorem builds_fill (hn : nested.Sound ns lost) (n : NestedSelect) {o : ObjId} {r : Result Unit}
    (hdepth : 0 < s.session.depth) (hs : s.Sound ns lost) (ho : (s.heap.record? o).isSome)
    (h : (n.fill o).run (.nested H D ns) nested s = some (r, t)) :
    Builds ns lost false s r t ∧ (r = .ok () → t.Accounts lost o n.property) := by
  rw [NestedSelect.run_fill] at h
  split at h
  · cases h
    exact ⟨.of_undisturbed hs (.refl s), fun hr => by cases hr⟩
  · dsimp only at h
    split at h
    · rename_i hheld
      exact builds_defer hs hheld ho (Option.some.inj h)
    · obtain ⟨⟨reply, u⟩, hanswer, hsettle⟩ := Option.map_eq_some_iff.1 h
      have hnames := Query.head?_components_keyOf H s.heap s.session.config (n.query o s.heap)
      have hu := hn _ _ s reply u hnames hdepth hs hanswer
      cases r with
      | error f =>
        have ht : t = u := by
          rw [NestedSelect.settle] at hsettle
          split at hsettle
          · exact (congrArg Prod.snd hsettle).symm
          · cases hsettle
        rw [ht]
        exact ⟨⟨hu.grows, hu.sound, fun _ _ hr => by cases hr⟩, fun hr => by cases hr⟩
      | ok _ =>
        obtain ⟨ws, v, hws, -, rfl⟩ := NestedSelect.settle_eq_ok hsettle
        rw [hws] at hu
        have hwrite : u.Undisturbed (u.withHeap (u.heap.write o n.property v)) :=
          ⟨u.heap.keeps_write o n.property v, rfl, rfl, rfl⟩
        refine ⟨hu.trans (.of_undisturbed hu.sound hwrite), fun _ => .inl ?_⟩
        exact Heap.has_write u.heap (hu.grows.heap.exist o ho) n.property v

/-- All nested properties of an object that are filled are set or wait. -/
theorem builds_fillAll (hn : nested.Sound ns lost) (ms : List NestedSelect) {o : ObjId}
    {r : Result Unit} (hdepth : 0 < s.session.depth) (hs : s.Sound ns lost)
    (ho : (s.heap.record? o).isSome)
    (h : (NestedSelect.fillAll o ms).run (.nested H D ns) nested s = some (r, t)) :
    Builds ns lost false s r t ∧ (r = .ok () → ∀ n ∈ ms, t.Accounts lost o n.property) := by
  induction ms generalizing s with
  | nil =>
    cases h
    exact ⟨.of_undisturbed hs (.refl _), fun _ n hm => nomatch hm⟩
  | cons n ms ih =>
    rw [NestedSelect.run_fillAll_cons] at h
    obtain ⟨⟨x, u⟩, hfill, hrest⟩ := Option.bind_eq_some_iff.1 h
    obtain ⟨hu, hset⟩ := builds_fill hn n hdepth hs ho hfill
    cases x with
    | error f =>
      cases hrest
      exact ⟨hu, fun hr => by cases hr⟩
    | ok _ =>
      have hdepth' : 0 < u.session.depth := by rwa [hu.grows.depth]
      obtain ⟨ht, hall⟩ := ih hdepth' hu.sound (hu.grows.heap.exist o ho) hrest
      refine ⟨hu.trans ht, fun hr m hm => ?_⟩
      obtain rfl | hm := List.mem_cons.1 hm
      · exact (hset rfl).mono ht.grows
      · exact hall hr m hm

/-- So the objects that rows become have all nested properties set or waiting. -/
theorem builds_objects (hn : nested.Sound ns lost) (ms : List NestedSelect) (rs : List Record)
    {r : Result (List Value)} (hdepth : 0 < s.session.depth) (hs : s.Sound ns lost)
    (h : (NestedSelect.objects ms rs).run (.nested H D ns) nested s = some (r, t)) :
    Builds ns lost false s r t ∧ ∀ vs, r = .ok vs → ∀ o, .object o ∈ vs →
      (t.heap.record? o).isSome ∧ ∀ n ∈ ms, t.Accounts lost o n.property := by
  induction rs generalizing s r t with
  | nil =>
    cases h
    refine ⟨.of_undisturbed hs (.refl _), fun vs hvs o ho => ?_⟩
    cases hvs
    cases ho
  | cons row rs ih =>
    rw [NestedSelect.run_objects_cons] at h
    obtain ⟨⟨x, u⟩, hfill, hrest⟩ := Option.bind_eq_some_iff.1 h
    have halloc : s.Undisturbed (s.withHeap (s.heap.alloc row).2) :=
      ⟨(Heap.grows_alloc s.heap row).keeps, rfl, rfl, rfl⟩
    have hnew : Builds ns lost false s (.ok () : Result Unit) _ := .of_undisturbed hs halloc
    have hexists : ((s.withHeap (s.heap.alloc row).2).heap.record? (s.heap.alloc row).1).isSome := by
      rw [State.withHeap, State.heap, Heap.record?_alloc_self]
      rfl
    obtain ⟨hu, hset⟩ := builds_fillAll (s := s.withHeap (s.heap.alloc row).2) hn ms hdepth
      hnew.sound hexists hfill
    cases x with
    | error f =>
      cases hrest
      exact ⟨(hnew.trans hu).fault rfl, fun vs hvs => by cases hvs⟩
    | ok _ =>
      have hdepth' : 0 < u.session.depth := by
        rw [hu.grows.depth]
        exact hdepth
      obtain ⟨⟨y, v⟩, hobjects, hcons⟩ := Option.map_eq_some_iff.1 hrest
      obtain ⟨hv, hbuilt⟩ := ih hdepth' hu.sound hobjects
      cases y with
      | error f =>
        cases hcons
        exact ⟨((hnew.trans hu).trans hv).fault rfl, fun vs hvs => by cases hvs⟩
      | ok ws =>
        cases hcons
        have hall := (hnew.trans hu).trans hv
        refine ⟨⟨hall.grows, hall.sound, fun _ _ _ => hall.lasts rfl ws rfl⟩, ?_⟩
        intro vs hvs o ho
        cases hvs
        obtain ho | ho := List.mem_cons.1 ho
        · cases ho
          exact ⟨hv.grows.heap.exist _ (hu.grows.heap.exist _ hexists),
            fun n hm => (hset rfl n hm).mono hv.grows⟩
        · exact hbuilt ws rfl o ho

/-- Rows may be kept if their objects are accounted for. -/
theorem sound_keepRows {vs : List Value} (hs : s.Sound ns lost) (hk : k.Names q.statement.id)
    (hvs : ∀ o, .object o ∈ vs → (s.heap.record? o).isSome ∧
      ∀ n ∈ ns q.statement.id, s.Accounts lost o n.property) : (s.keepRows k vs).Sound ns lost := by
  have hkept : ∀ j e, (s.keepRows k vs).session.loaded.get? j = some e →
      (j = k ∧ e = .rows vs) ∨ s.session.loaded.get? j = some e := by
    intro j e he
    have he : (s.session.loaded.insert k (.rows vs)).get? j = some e := he
    by_cases hj : j = k
    · subst hj
      rw [Table.get?_insert_self] at he
      exact .inl ⟨rfl, (Option.some.inj he).symm⟩
    · rw [Table.get?_insert_of_ne _ _ hj] at he
      exact .inr he
  constructor
  · intro j ws id hj hid o ho
    obtain ⟨rfl, hws⟩ | hbefore := hkept j _ hj
    · cases hws
      rw [hid.unique hk]
      exact hvs o ho
    · exact hs.whole j ws id hbefore hid o ho
  · intro j e he
    obtain ⟨-, rfl⟩ | hbefore := hkept j e he
    · exact .inr ⟨vs, rfl⟩
    · exact hs.plain j e hbefore

theorem builds_mark (hs : s.Sound ns lost) (k : Key) :
    Builds ns lost false s (.ok () : Result Unit) (s.mark k) := by
  have hgrows : s.Grows (s.mark k) := ⟨.refl _, rfl, fun _ => id⟩
  refine ⟨hgrows, hs.mono hgrows fun j e he => ?_, fun _ _ _ => ⟨fun j hj => ?_, fun _ => .inl⟩⟩
  · have he : (s.session.loaded.insert k .loading).get? j = some e := he
    by_cases hj : j = k
    · subst hj
      rw [Table.get?_insert_self] at he
      exact .inl (Option.some.inj he).symm
    · rw [Table.get?_insert_of_ne _ _ hj] at he
      exact .inr he
  · change ((s.session.loaded.insert k .loading).get? j).isSome
    by_cases hjk : j = k
    · subst hjk
      simp
    · rw [Table.get?_insert_of_ne _ _ hjk]
      exact hj

theorem grows_unmark (s : State τ) (k : Key) : s.Grows (s.unmark k) := ⟨.refl _, rfl, fun _ => id⟩

theorem sound_unmark (hs : s.Sound ns lost) (k : Key) : (s.unmark k).Sound ns lost := by
  refine hs.mono (grows_unmark s k) fun j e he => .inr ?_
  have he : (s.session.loaded.erase k).get? j = some e := he
  by_cases hj : j = k
  · subst hj
    rw [Table.get?_erase_self] at he
    cases he
  · rw [Table.get?_erase_of_ne _ hj] at he
    exact he

theorem undisturbed_keepOutputs (q : Query) (k : Key) (s : State τ) :
    s.Undisturbed (s.keepOutputs q k) := by
  obtain ⟨outputs, hkeep⟩ := s.keepOutputs_outputs q k
  rw [hkeep]
  exact ⟨.refl _, rfl, rfl, rfl⟩

/-- When rows take the place of a mark, what was held is held. -/
theorem lasts_keepRows (s : State τ) (k : Key) (vs : List Value) :
    s.Lasts ((s.unmark k).keepRows k vs) := by
  refine ⟨fun j hj => ?_, fun d hd => .inl hd⟩
  change (((s.session.loaded.erase k).insert k (.rows vs)).get? j).isSome
  by_cases hjk : j = k
  · subst hjk
    simp
  · rw [Table.get?_insert_of_ne _ _ hjk, Table.get?_erase_of_ne _ hjk]
    exact hj

theorem undisturbed_restoreOutputs (q : Query) (k : Key) (s : State τ) :
    s.Undisturbed (s.restoreOutputs q k) := by
  have hkeeps := keeps_restoreOutputs q k s
  obtain ⟨h, hrestore⟩ := s.restoreOutputs_heap q k
  rw [hrestore] at hkeeps ⊢
  exact ⟨hkeeps, rfl, rfl, rfl⟩

/-- A query that ends is as deep as it began. -/
theorem Builds.leave {α : Type} {r : Result α} (h : Builds ns lost handled s.enter r t) :
    Builds ns lost handled s r t.leave := by
  have hdepth : t.session.depth = s.session.depth + 1 := h.grows.depth
  refine ⟨⟨h.grows.heap, ?_, h.grows.waits⟩, ⟨h.sound.whole, h.sound.plain⟩,
    fun hhandled a ha => ⟨(h.lasts hhandled a ha).held, (h.lasts hhandled a ha).waits⟩⟩
  change t.session.depth - 1 = s.session.depth
  omega

theorem opened_of_pos (q : Query) (h : 0 < s.session.depth) : s.opened q = s := by
  rw [opened, if_neg]
  simp [Nat.ne_of_gt h]

theorem deferred_opened (q : Query) (s : State τ) :
    (s.opened q).session.deferred = s.session.deferred := by
  rw [opened, clearLoaded, Session.clearLoaded]
  repeat' split
  all_goals rfl

theorem sound_opened (hs : s.Sound ns lost) : (s.opened q).Sound ns lost := by
  have hgrows : s.Grows (s.opened q) := by
    rw [opened, clearLoaded, Session.clearLoaded]
    repeat' split
    all_goals exact ⟨.refl _, rfl, fun _ => id⟩
  exact hs.mono hgrows fun _ _ he => .inr (get?_opened he)

theorem keeps_nested (H : ComponentHash) (hD : D.Keeps) (ns : String → List NestedSelect) :
    Tracks (.nested H D ns) (fun _ _ => True) fun s t => s.heap.Keeps t.heap :=
  keeps_tracks hD

variable (hD : D.Keeps)

include hD

theorem builds_load (hn : nested.Sound ns lost) (hdepth : 0 < s.session.depth)
    (hs : s.Sound ns lost)
    (h : s.load (.nested H D ns) nested q handled = some (reply, t)) :
    Builds ns lost false s reply.result t ∧ ∀ vs, reply.result = .ok vs → ∀ o, .object o ∈ vs →
      (t.heap.record? o).isSome ∧ ∀ n ∈ ns q.statement.id, t.Accounts lost o n.property := by
  have hkeeps : s.heap.Keeps ((Env.nested H D ns).source.query q.statement q.binding q.param
      q.window s.heap s.world.source).2.1 := hD.query _ _ _ _ _ _
  rw [State.load] at h
  generalize (Env.nested H D ns).source.query q.statement q.binding q.param q.window s.heap
    s.world.source = x at h hkeeps
  obtain ⟨rows, h', w⟩ := x
  have hasked : s.Undisturbed { s with world := { s.world with heap := h', source := w } } :=
    ⟨hkeeps, rfl, rfl, rfl⟩
  cases rows with
  | error f =>
    cases h
    exact ⟨.of_undisturbed hs hasked, fun vs hvs => by cases hvs⟩
  | ok rows =>
    obtain ⟨⟨r, u⟩, hrun, hreply⟩ := Option.map_eq_some_iff.1 h
    have hstart : Builds ns lost false s (.ok () : Result Unit) _ := .of_undisturbed hs hasked
    obtain ⟨hu, hbuilt⟩ := builds_objects (s := { s with world := { s.world with
      heap := h', source := w } }) hn (ns q.statement.id) rows hdepth hstart.sound hrun
    have hall := hstart.trans hu
    cases r with
    | error f =>
      cases hreply
      exact ⟨hall.fault rfl, fun vs hvs => by cases hvs⟩
    | ok ws =>
      cases hreply
      refine ⟨⟨hall.grows, hall.sound, fun _ _ _ => hall.lasts rfl ws rfl⟩, fun vs hvs o ho => ?_⟩
      cases handled with
      | true =>
        cases hvs
        cases ho
      | false =>
        cases hvs
        exact hbuilt ws rfl o ho

theorem builds_fetch (hn : nested.Sound ns lost) (hk : k.Names q.statement.id)
    (hdepth : 0 < s.session.depth) (hs : s.Sound ns lost)
    (h : s.fetch (.nested H D ns) nested q k handled = some (reply, t)) :
    Builds ns lost handled s reply.result t := by
  have hmark := builds_mark hs k
  cases hresult : reply.result with
  | error f =>
    obtain ⟨u, hload, rfl⟩ := State.fetch_error h hresult
    obtain ⟨hu, -⟩ := builds_load (s := s.mark k) hD hn hdepth hmark.sound hload
    exact ⟨(hmark.trans hu).grows.trans (grows_unmark u k), sound_unmark hu.sound k,
      fun _ _ hr => by cases hr⟩
  | ok vs =>
    obtain ⟨u, hload, rfl⟩ := State.fetch_ok h hresult
    obtain ⟨hu, hbuilt⟩ := builds_load (s := s.mark k) hD hn hdepth hmark.sound hload
    have hall := hmark.trans hu
    have hunmark := sound_unmark hu.sound k
    cases handled with
    | true =>
      have hout := undisturbed_keepOutputs q k (u.unmark k)
      have hend : Builds ns lost true (u.unmark k) (.ok vs) _ := .of_undisturbed hunmark hout
      exact ⟨(hall.grows.trans (grows_unmark u k)).trans hend.grows, hend.sound, nofun⟩
    | false =>
      have hkeep := sound_keepRows hunmark hk (hbuilt vs hresult)
      have hout := undisturbed_keepOutputs q k ((u.unmark k).keepRows k vs)
      have hend : Builds ns lost false ((u.unmark k).keepRows k vs) (.ok vs) _ :=
        .of_undisturbed hkeep hout
      have hkept := (hall.lasts rfl vs hresult).trans (lasts_keepRows u k vs)
      have hgrows : u.Grows ((u.unmark k).keepRows k vs) := ⟨.refl _, rfl, fun _ => id⟩
      exact ⟨(hall.grows.trans hgrows).trans hend.grows, hend.sound,
        fun _ _ _ => hkept.trans hout.lasts⟩

theorem builds_lookup (hn : nested.Sound ns lost) (hk : k.Names q.statement.id)
    (hdepth : 0 < s.session.depth) (hs : s.Sound ns lost)
    (h : s.lookup (.nested H D ns) nested q k handled = some (reply, t)) :
    Builds ns lost handled s reply.result t := by
  cases State.looked_of_lookup h with
  | reentered _ _ => exact .of_undisturbed hs (.refl _)
  | held _ _ _ => exact .of_undisturbed hs (undisturbed_restoreOutputs q k s)
  | loaded _ _ hfetch => exact builds_fetch hD hn hk hdepth hs hfetch

theorem builds_inside (hn : nested.Sound ns lost) (hk : k.Names q.statement.id)
    (hs : (s.opened q).Sound ns lost)
    (h : s.inside (.nested H D ns) nested q k handled = some (reply, t)) :
    Builds ns lost handled (s.opened q) reply.result t := by
  obtain ⟨⟨a, u⟩, hlookup, hreply⟩ := Option.map_eq_some_iff.1 h
  cases hreply
  have henter : (s.opened q).enter.Sound ns lost := ⟨hs.whole, hs.plain⟩
  exact (builds_lookup hD hn hk (Nat.succ_pos _) henter hlookup).leave

/-- Whatever happens inside a query, every nested property of a kept result is accounted for. -/
theorem sound_answer (limit : Nat) : ((Env.nested H D ns).answer limit).Sound ns lost := by
  induction limit with
  | zero =>
    intro q k s reply t _ _ _ h
    cases h
  | succ limit ih =>
    intro q k s reply t hk hdepth hs h
    have hheap : s.heap.Keeps t.heap :=
      (keeps_nested H hD ns).answer h
    cases ended_of_answerOnce h with
    | early _ hown => exact .of_undisturbed hs (.of_own hheap hown)
    | @late a _ u _ hinside hown hheap' =>
      have hreach : s.Undisturbed (s.reaching q k false) :=
        .of_own ((keeps_nested H hD ns).reaching q k false s)
          (own_reaching q k false s)
      have hstart : Builds ns lost false s (.ok ()) (s.reaching q k false) :=
        .of_undisturbed hs hreach
      have hdepth' : 0 < (s.reaching q k false).session.depth := by rwa [hreach.depth]
      have hopened := opened_of_pos q hdepth'
      have hu := builds_inside hD ih hk (hopened.symm ▸ hstart.sound) hinside
      rw [hopened] at hu
      -- a query runs around this one, so nothing is left to do
      have hending : u.ending a = (a, u) := by
        rw [ending, if_pos (by rwa [hu.grows.depth])]
      rw [hending] at hown hheap' ⊢
      have hkeeps : u.heap.Keeps t.heap := by
        rw [hheap']
        exact .refl _
      have hall := hstart.trans hu
      have hend := Undisturbed.of_own hkeeps hown
      exact ⟨hall.grows.trans hend.grows, hall.sound.of_undisturbed hend, fun hhandled vs hvs =>
        (hall.lasts hhandled vs hvs).trans hend.lasts⟩

end Tree

end ResultCache
