import ResultCache.Proofs.Session.Ledger
import ResultCache.Proofs.Session.Moves

/-!
# Resolving nested properties

While queries run inside one another the ledger keeps fitting: a nested property is settled as soon
as its nested select was run, whether its query was answered at once, its results were there, or
they are still loading further out (`Ledger.Fits.fill`); so every object that was made of a row is
filled (`Ledger.Frame.objects`), and a query that is answered inside others leaves everything that
was there as it was (`Scheme.resolves_answer`, by induction on how deep queries nest).
-/
namespace ResultCache

variable {τ : Type} {W : Scheme τ} {A A' : Ledger} {s t : State τ} {o : ObjId} {T : Told}
  {r : Record} {k : Key} {n : NestedSelect} {nested : Answering τ}

namespace Ledger

/-- A query that a session may run: the session holds nothing for its key, and it sets properties of
no object that the ledger or the data source knows. -/
structure Asks (W : Scheme τ) (A : Ledger) (s : State τ) (q : Query) (k : Key) : Prop where
  key : W.keyOf s.heap q = k
  unloaded : s.session.loaded.get? k = none
  sets : ∀ o, q.Sets o → A.home o = none ∧ ¬ W.shared o

/-- What a query inside others brings about: the session holds its rows, and all else is as it
was. -/
def Brings (W : Scheme τ) (A : Ledger) (s : State τ) (k : Key) (vs : List Value) (t : State τ) :
    Prop :=
  ∃ A', A'.Fits W t ∧ Later nothing none A s A' t ∧ t.session.loaded.get? k = some (.rows vs)

end Ledger

/-- Queries inside others are answered as they should be, if at all. -/
def Scheme.Resolves (W : Scheme τ) (nested : Answering τ) : Prop :=
  ∀ {A : Ledger} {s t : State τ} {q k reply vs}, A.Fits W s → 0 < s.session.depth →
    A.Asks W s q k → s.session.sharedCache q.statement = none →
    nested q k false s = some (reply, t) → reply.result = .ok vs → A.Brings W s k vs t

namespace Ledger

theorem later_write (A : Ledger) (s : State τ) (o : ObjId) (name : String) (v : Value) :
    Later (· = o) none A s A (s.withHeap (s.heap.write o name v)) :=
  .quiet rfl rfl (Nat.le_of_eq (Heap.size_write _ _ _ _).symm)
    (fun _ hne => Heap.record?_write_of_ne _ _ _ hne) fun _ hd => hd

theorem Making.later {own : ObjId → Prop} {key : Option Key} (ho : A.Making s o)
    (hA : A.Fits W s) (h : Later own key A s A' t) : A'.Making t o := by
  obtain ⟨k, i, hk, hloading⟩ := ho
  exact ⟨k, i, (h.home (hA.known hk)).trans hk, h.loaded hloading⟩

theorem Making.known (ho : A.Making s o) (hA : A.Fits W s) : o.index < s.heap.size := by
  obtain ⟨k, i, hk, -⟩ := ho
  exact hA.known hk

/-- The query of a nested select takes its parameter from the row. -/
theorem Fits.query_eq (hA : A.Fits W s) (hr : A.Row o T r) (hn : n ∈ W.selects T) :
    n.query o s.heap = n.forRow r := by
  have hcolumn := hA.columns hr n.column fun m hm => W.columns _ n hn m hm
  rw [NestedSelect.query, NestedSelect.forRow, hcolumn]

theorem Fits.agreeOn_reach (hA : A.Fits W s) (hT : A.told k = some T) :
    Heap.AgreeOn (T.Reach W.shared) T.after s.heap := by
  rintro o (ho | ho)
  · rw [hA.given o ho, Scheme.agreeOn_after (hA.sound.answers hT) o ho]
  · exact hA.made hT ho

/-- The key of a nested select stays the one that it had when the row was told. -/
theorem Fits.keyOf_query (hA : A.Fits W s) (hr : A.Row o T r) (hn : n ∈ W.selects T) :
    W.keyOf s.heap (n.query o s.heap) = W.nestedKey T n r := by
  rw [hA.query_eq hr hn]
  obtain ⟨k, i, -, hT, hr⟩ := hr
  exact Scheme.keyOf_forRow_of_agreeOn (hA.sound.answers hT) (hA.agreeOn_reach hT) n
    (List.mem_of_getElem? hr)

/-- What a nested select of an object that is being made brings about: its property is settled, and
all else is as it was. -/
def Fills (W : Scheme τ) (A : Ledger) (s : State τ) (o : ObjId) (T : Told) (r : Record)
    (ns : List NestedSelect) (t : State τ) : Prop :=
  ∃ A', A'.Fits W t ∧ Later (· = o) none A s A' t ∧
    (∀ n ∈ ns, t.Settled o n (W.nestedKey T n r)) ∧
    ∀ name, (∀ n ∈ ns, n.property ≠ name) → t.heap.read o name = s.heap.read o name

/-- The property is set to what the results for its key give. -/
theorem Fits.fills_write (hA : A.Fits W s) (ho : A.Making s o) (hr : A.Row o T r)
    (hn : n ∈ W.selects T) {ws : List Value} {v : Value}
    (hws : s.session.loaded.get? (W.nestedKey T n r) = some (.rows ws))
    (hv : n.target.extract ws = .ok v) :
    A.Fills W s o T r [n] (s.withHeap (s.heap.write o n.property v)) := by
  refine ⟨A, hA.write ho hr hn v, later_write A s o n.property v, fun m hm => ?_,
    fun name hname => Heap.read_write_of_ne _ _ _ (hname n List.mem_cons_self).symm⟩
  rw [List.mem_singleton.1 hm]
  exact .inl ⟨ws, v, hws, hv, Heap.read_write_self (ho.known hA) _ _⟩

/-- Results that are there, or still loading. -/
theorem Fits.fills_defer (hA : A.Fits W s) (ho : A.Making s o) (hr : A.Row o T r)
    (hn : n ∈ W.selects T) (hk : s.session.loaded.contains (W.nestedKey T n r))
    (hrun : s.defer ⟨o, n.property, W.nestedKey T n r, n.target⟩ = (.ok (), t)) :
    A.Fills W s o T r [n] t := by
  -- the key stays closed: nothing of what it is made of matters here
  generalize hkey : W.nestedKey T n r = k at hk hrun
  let d : Session.Deferred := ⟨o, n.property, k, n.target⟩
  have hwaits : A.Waits W s d := ⟨hk, o, T, r, n, hr, hn, by rw [hkey]⟩
  obtain ⟨e, he⟩ := Option.isSome_iff_exists.1 hk
  obtain ⟨T', -, hholds⟩ := hA.held he
  rw [State.defer] at hrun
  split at hrun
  · cases hrun
  · cases hholds with
    | loading =>
      have hcan : d.canLoad s.session.loaded = false := by
        rw [Session.Deferred.canLoad, he]
        rfl
      rw [hcan] at hrun
      cases hrun
      refine ⟨A, hA.wait hwaits, ?_, fun m hm => ?_, fun _ _ => rfl⟩
      · exact .quiet rfl rfl (Nat.le_refl _) (fun _ _ => rfl) fun e he =>
          List.mem_append_left _ he
      · rw [List.mem_singleton.1 hm, hkey]
        exact .inr (List.mem_append_right _ List.mem_cons_self)
    | @rows os hos hlen hfilled =>
      have hcan : d.canLoad s.session.loaded = true := by
        rw [Session.Deferred.canLoad, he]
        rfl
      obtain ⟨⟨res, h⟩, hload⟩ : ∃ x, d.load s.session.loaded s.heap = x := ⟨_, rfl⟩
      rw [if_pos hcan, hload] at hrun
      cases hrun
      obtain ⟨v, hv, rfl⟩ := Session.Deferred.load_eq_ok he hload
      exact hA.fills_write ho hr hn (hkey ▸ he) hv

/-- The query of a nested select whose results are not there. -/
theorem Fits.asks_query (hA : A.Fits W s) (hr : A.Row o T r) (hn : n ∈ W.selects T)
    (hk : ¬ s.session.loaded.contains (W.nestedKey T n r)) :
    A.Asks W s (n.query o s.heap) (W.nestedKey T n r) where
  key := hA.keyOf_query hr hn
  unloaded := by
    rw [Table.contains, Bool.not_eq_true, Option.isSome_eq_false_iff] at hk
    exact Option.isNone_iff_eq_none.1 hk
  sets p hp := by
    rw [hA.query_eq hr hn] at hp
    obtain ⟨j, i, -, hT, hi⟩ := hr
    exact absurd hp (W.procedures T (hA.sound.answers hT).tells n hn r (List.mem_of_getElem? hi) p)

theorem Fits.sharedCache_select (hA : A.Fits W s) (hn : n ∈ W.selects T) :
    s.session.sharedCache n.statement = none := by
  rw [Session.sharedCache, hA.config]
  split
  · exact W.unshared _ n hn ‹_›
  · rfl

/-- One nested select of an object that is being made. -/
theorem Fits.fill (hA : A.Fits W s) (hnested : W.Resolves nested) (hdepth : 0 < s.session.depth)
    (ho : A.Making s o) (hr : A.Row o T r) (hn : n ∈ W.selects T)
    (hrun : (n.fill o).run W.env nested s = some (.ok (), t)) : A.Fills W s o T r [n] t := by
  rw [NestedSelect.run_fill] at hrun
  split at hrun
  · cases hrun
  · have hkey : W.keyOf s.heap (n.query o s.heap) = W.nestedKey T n r := hA.keyOf_query hr hn
    have hkey' : Session.keyOf W.env.hash s.heap s.session.config (n.query o s.heap) =
        W.nestedKey T n r := hA.config ▸ hkey
    dsimp only at hrun
    rw [hkey'] at hrun
    split at hrun
    · rename_i hk
      exact hA.fills_defer ho hr hn hk (Option.some.inj hrun)
    · rename_i hk
      obtain ⟨⟨reply, u⟩, hquery, hsettle⟩ := Option.map_eq_some_iff.1 hrun
      obtain ⟨ws, v, hreply, hv, rfl⟩ := NestedSelect.settle_eq_ok hsettle
      obtain ⟨j, i, hj, -⟩ := id hr
      obtain ⟨A', hA', hlater, hloaded⟩ := hnested hA hdepth
        (hA.asks_query hr hn hk) (hA.sharedCache_select hn) hquery hreply
      have ho' := ho.later hA hlater
      obtain ⟨A'', hA'', hlater', hsettled, hread⟩ :=
        hA'.fills_write ho' (hlater.row (ho.known hA) hr) hn hloaded hv
      refine ⟨A'', hA'', (hlater.mono fun _ hp => hp.elim).trans hlater' fun _ _ hp => hp, hsettled,
        fun name hname => (hread name hname).trans ?_⟩
      rw [Heap.read, Heap.read, hlater.records (ho.known hA) hj id]

/-- All nested selects of an object that is being made, one after the other. -/
theorem Fits.fillAll (hA : A.Fits W s) (hnested : W.Resolves nested) (hdepth : 0 < s.session.depth)
    (ho : A.Making s o) (hr : A.Row o T r) {ns : List NestedSelect}
    (hns : ∀ n ∈ ns, n ∈ W.selects T) (hnames : ns.Pairwise fun n m => n.property ≠ m.property)
    (hrun : (NestedSelect.fillAll o ns).run W.env nested s = some (.ok (), t)) :
    A.Fills W s o T r ns t := by
  induction ns generalizing A s with
  | nil =>
    cases hrun
    exact ⟨A, hA, .refl A _, fun _ hn => absurd hn List.not_mem_nil, fun _ _ => rfl⟩
  | cons n ns ih =>
    obtain ⟨hname, hnames⟩ := List.pairwise_cons.1 hnames
    rw [NestedSelect.run_fillAll_cons] at hrun
    obtain ⟨⟨_ | ⟨⟩, u⟩, hfill, hrest⟩ := Option.bind_eq_some_iff.1 hrun
    · cases hrest
    · obtain ⟨A₁, hA₁, hlater₁, hsettled₁, hread₁⟩ :=
        hA.fill hnested hdepth ho hr (hns n List.mem_cons_self) hfill
      obtain ⟨A₂, hA₂, hlater₂, hsettled₂, hread₂⟩ := ih hA₁ (hlater₁.depth.symm ▸ hdepth)
        (ho.later hA hlater₁) (hlater₁.row (ho.known hA) hr)
        (fun m hm => hns m (List.mem_cons_of_mem _ hm)) hnames hrest
      refine ⟨A₂, hA₂, hlater₁.trans hlater₂ fun _ _ hp => hp, fun m hm => ?_, fun name hn => ?_⟩
      · rcases List.mem_cons.1 hm with rfl | hm
        · exact (hsettled₁ m List.mem_cons_self).later hlater₂.loaded hlater₂.deferred
            (hread₂ _ fun m' hm' => (hname m' hm').symm)
        · exact hsettled₂ m hm
      · have hhead : ∀ m ∈ [n], m.property ≠ name := fun m hm =>
          hn m (List.mem_singleton.1 hm ▸ List.mem_cons_self)
        rw [hread₂ name fun m hm => hn m (List.mem_cons_of_mem _ hm), hread₁ name hhead]

/-- In the middle of making objects of the rows for a key: these are made so far, and filled. -/
structure Frame (W : Scheme τ) (A : Ledger) (s : State τ) (k : Key) (T : Told) (os : List ObjId) :
    Prop where
  fits : A.Fits W s
  depth : 0 < s.session.depth
  loading : s.session.loaded.get? k = some .loading
  told : A.told k = some T
  lists : A.Lists k os
  filled : ∀ o ∈ os, A.Filled W s o

/-- One more object is made of a row. -/
theorem Lists.place {os : List ObjId} (hos : A.Lists k os) (ho : A.home o = none) :
    (A.place o k os.length).Lists k (os ++ [o]) := by
  intro i p
  by_cases hp : p = o
  · subst hp
    rw [home_place_self, List.getElem?_append]
    split
    · rename_i hi
      rw [hos i p, ho]
      simp [Nat.ne_of_gt hi]
    · rename_i hi
      rw [List.getElem?_singleton]
      simp
      omega
  · rw [home_place_of_ne A _ k hp, ← hos i p, List.getElem?_append]
    split
    · rfl
    · rename_i hi
      rw [List.getElem?_eq_none (Nat.not_lt.1 hi), List.getElem?_singleton]
      simp [Ne.symm hp]

/-- The next row becomes an object and is filled. -/
theorem Frame.next {os : List ObjId} (hf : A.Frame W s k T os) (hnested : W.Resolves nested)
    (hr : T.rows[os.length]? = some r)
    (hrun : (NestedSelect.fillAll (s.heap.alloc r).1 (W.selects T)).run W.env nested
      (s.withHeap (s.heap.alloc r).2) = some (.ok (), t)) :
    ∃ A', A'.Frame W t k T (os ++ [(s.heap.alloc r).1]) ∧ Later nothing (some k) A s A' t := by
  have hself : ¬ (s.heap.alloc r).1.index < s.heap.size := Nat.lt_irrefl _
  have hnone : A.home (s.heap.alloc r).1 = none :=
    Option.eq_none_iff_forall_ne_some.2 fun x hx => hself (hf.fits.known hx)
  have hplace := hf.fits.place hf.loading hf.told hr
  have hlater := Fits.later_place A s k os.length r
  have hhome := A.home_place_self os.length (s.heap.alloc r).1 k
  have hrow : (A.place (s.heap.alloc r).1 k os.length).Row (s.heap.alloc r).1 T r :=
    ⟨k, os.length, hhome, hf.told, hr⟩
  obtain ⟨A', hA', hlater', hsettled, -⟩ := hplace.fillAll hnested hf.depth
    ⟨k, os.length, hhome, hf.loading⟩ hrow (fun _ hn => hn) (List.pairwise_map.1 (W.names _)) hrun
  have hboth : Later nothing (some k) A s A' t := by
    refine hlater.trans (hlater'.mono fun _ hp => hp) fun p hp he => hself ?_
    exact he ▸ hp
  refine ⟨A', ⟨hA', hboth.depth ▸ hf.depth, hboth.loaded hf.loading, hboth.told hf.told,
    (hf.lists.place hnone).later hplace hlater' hf.told (fun hk => nomatch hk), fun o ho => ?_⟩,
    hboth⟩
  rcases List.mem_append.1 ho with ho | ho
  · obtain ⟨i, hi⟩ := List.mem_iff_getElem?.1 ho
    exact (hf.filled o ho).later hf.fits hboth ((hf.lists i o).1 hi) id
  · rw [List.mem_singleton.1 ho]
    intro T' r' hr' n hn
    obtain ⟨rfl, rfl⟩ := (hlater'.row_of_home hplace hhome hr').unique hrow
    exact hsettled n hn

/-- Every row becomes an object and is filled. -/
theorem Frame.objects {os : List ObjId} (hf : A.Frame W s k T os) (hnested : W.Resolves nested)
    {done rs : List Record} (hrows : T.rows = done ++ rs) (hlen : os.length = done.length)
    {vs : List Value}
    (hrun : (NestedSelect.objects (W.selects T) rs).run W.env nested s = some (.ok vs, t)) :
    ∃ A' os', A'.Frame W t k T (os ++ os') ∧ Later nothing (some k) A s A' t ∧
      vs = os'.map .object ∧ (os ++ os').length = T.rows.length := by
  induction rs generalizing A s os done vs with
  | nil =>
    cases hrun
    refine ⟨A, [], ?_, .refl A _, rfl, ?_⟩
    · rw [List.append_nil]
      exact hf
    · rw [hrows, List.append_nil, List.append_nil, hlen]
  | cons r rs ih =>
    rw [NestedSelect.run_objects_cons] at hrun
    obtain ⟨⟨_ | ⟨⟩, u⟩, hfill, hrest⟩ := Option.bind_eq_some_iff.1 hrun
    · cases hrest
    · obtain ⟨⟨_ | ws, v⟩, hobjects, hcons⟩ := Option.map_eq_some_iff.1 hrest
      · cases hcons
      · cases hcons
        have hr : T.rows[os.length]? = some r := by
          rw [hrows, hlen, List.getElem?_append_right (Nat.le_refl _), Nat.sub_self]
          rfl
        obtain ⟨A₁, hf₁, hlater₁⟩ := hf.next hnested hr hfill
        have hrows' : T.rows = (done ++ [r]) ++ rs := by rw [hrows, List.append_assoc]; rfl
        have hlen' : (os ++ [(s.heap.alloc r).1]).length = (done ++ [r]).length := by
          rw [List.length_append, List.length_append, hlen]
          rfl
        obtain ⟨A₂, os', hf₂, hlater₂, rfl, hall⟩ := ih hf₁ hrows' hlen' hobjects
        rw [List.append_assoc] at hf₂ hall
        exact ⟨A₂, (s.heap.alloc r).1 :: os', hf₂, hlater₁.trans hlater₂ fun _ _ hp => hp, rfl,
          hall⟩

/-- Rows from the data source, under the mark of their key. -/
theorem Fits.load (hA : A.Fits W s) (hnested : W.Resolves nested) (hdepth : 0 < s.session.depth)
    {q : Query} (hq : A.Asks W s q k) {reply : Reply} {vs : List Value}
    (hrun : (s.mark k).load W.env nested q false = some (reply, t)) (hvs : reply.result = .ok vs) :
    ∃ A' T os, A'.Frame W t k T os ∧ Later nothing (some k) A s A' t ∧ vs = os.map .object ∧
      os.length = T.rows.length := by
  obtain ⟨⟨rows, h, u⟩, hquery⟩ : ∃ x, W.source.query q.statement q.binding q.param q.window s.heap
      s.world.source = x := ⟨_, rfl⟩
  have hquery' : W.env.source.query q.statement q.binding q.param q.window (s.mark k).heap
      (s.mark k).world.source = (rows, h, u) := hquery
  rw [State.load, hquery'] at hrun
  cases rows with
  | error f =>
    cases hrun
    cases hvs
  | ok rows =>
    let T : Told := ⟨q, s.heap, rows, h⟩
    have hT : W.Answers k T :=
      ⟨⟨_, _, hquery⟩, hA.given, fun o ho => (hq.sets o ho).2, hq.key⟩
    have hsets : ∀ o, T.query.Sets o → A.home o = none := fun o ho => (hq.sets o ho).1
    have hlater := hA.later_tell hq.unloaded hT rfl hsets u
    have hlists : (A.tell k T).Lists k [] := by
      intro i o
      refine ⟨fun ho => (by cases ho), fun ho => ?_⟩
      by_cases hm : T.Made o
      · rw [home_tell_made A k hm] at ho
        cases ho
      · rw [home_tell_of_not_made A k hm] at ho
        obtain ⟨T', r, hT', -⟩ := hA.sound.row ho
        rw [hA.told_eq_none hq.unloaded] at hT'
        cases hT'
    have hframe : (A.tell k T).Frame W (Fits.told s k T u) k T [] :=
      ⟨hA.tell hq.unloaded hT rfl hsets u, hdepth, Table.get?_insert_self .., told_tell_self A k T,
        hlists, fun _ ho => absurd ho List.not_mem_nil⟩
    obtain ⟨⟨r, v⟩, hobjects, hreply⟩ := Option.map_eq_some_iff.1 hrun
    cases r with
    | error f =>
      cases hreply
      cases hvs
    | ok ws =>
      cases hreply
      cases hvs
      obtain ⟨A', os, hframe', hlater', hws, hlen⟩ :=
        hframe.objects hnested (List.nil_append rows).symm rfl hobjects
      exact ⟨A', T, os, hframe', hlater.trans hlater' fun _ _ hp => hp, hws, hlen⟩

/-- Rows from the data source are kept. -/
theorem Fits.fetch (hA : A.Fits W s) (hnested : W.Resolves nested) (hdepth : 0 < s.session.depth)
    {q : Query} (hq : A.Asks W s q k) {reply : Reply} {vs : List Value}
    (hrun : s.fetch W.env nested q k false = some (reply, t)) (hvs : reply.result = .ok vs) :
    A.Brings W s k vs t := by
  rw [State.fetch] at hrun
  obtain ⟨⟨r, u⟩, hload, hreply⟩ := Option.map_eq_some_iff.1 hrun
  dsimp only at hreply
  split at hreply
  · rename_i f hf
    cases hreply
    rw [hf] at hvs
    cases hvs
  · rename_i ws hws
    obtain ⟨A', T, os, hframe, hlater, rfl, hlen⟩ := hA.load hnested hdepth hq hload hws
    obtain ⟨outputs, hout⟩ :=
      ((u.unmark k).keepRows k (os.map .object)).keepOutputs_outputs q k
    rw [if_neg Bool.false_ne_true, hout] at hreply
    cases hreply
    rw [hws] at hvs
    cases hvs
    have hkeep := hframe.fits.keep hframe.loading hframe.told hframe.lists hlen hframe.filled
    refine ⟨A', ?_, hlater.keep hq.unloaded (hA.told_eq_none hq.unloaded) rfl rfl rfl
      (Table.get?_insert_self ..) fun hj => ?_, Table.get?_insert_self ..⟩
    · exact hkeep.same rfl rfl rfl rfl
    · exact (Table.get?_insert_of_ne _ _ hj).trans (Table.get?_erase_of_ne _ hj)

theorem Fits.lookup (hA : A.Fits W s) (hnested : W.Resolves nested) (hdepth : 0 < s.session.depth)
    {q : Query} (hq : A.Asks W s q k) {reply : Reply} {vs : List Value}
    (hrun : s.lookup W.env nested q k false = some (reply, t)) (hvs : reply.result = .ok vs) :
    A.Brings W s k vs t := by
  rw [State.lookup, if_neg Bool.false_ne_true, hq.unloaded] at hrun
  exact hA.fetch hnested hdepth hq hrun hvs

/-- A reply of rows was one of rows before what remained was done. -/
theorem rows_of_answered {r reply : Reply} {u : State τ} {vs : List Value}
    (h : (if 0 < u.session.depth then (r, u) else u.finish r) = (reply, t))
    (hvs : reply.result = .ok vs) : ∃ ws, r.result = .ok ws := by
  cases hr : r.result with
  | ok ws => exact ⟨ws, rfl⟩
  | error f =>
    rw [State.finish, hr] at h
    split at h
    · cases h
      rw [hr] at hvs
      cases hvs
    · cases h
      rw [hr] at hvs
      cases hvs

/-- A query inside others. -/
theorem Fits.answerLocal (hA : A.Fits W s) (hnested : W.Resolves nested)
    (hdepth : 0 < s.session.depth) {q : Query} (hq : A.Asks W s q k) {reply : Reply}
    {vs : List Value} (hrun : s.answerLocal W.env nested q k false = some (reply, t))
    (hvs : reply.result = .ok vs) : A.Brings W s k vs t := by
  have hstart : (if s.session.depth = 0 && q.statement.flushes then s.clearLoaded else s) = s := by
    rw [decide_eq_false (Nat.pos_iff_ne_zero.1 hdepth), Bool.false_and, if_neg Bool.false_ne_true]
  rw [State.answerLocal, hstart] at hrun
  obtain ⟨⟨r, u⟩, hlookup, hreply⟩ := Option.map_eq_some_iff.1 hrun
  have henter : A.Fits W s.enter := hA.same rfl rfl rfl rfl
  obtain ⟨ws, hws⟩ := rows_of_answered hreply hvs
  obtain ⟨A', hA', hlater, hloaded⟩ := henter.lookup hnested (Nat.succ_pos _)
    ⟨hq.key, hq.unloaded, hq.sets⟩ hlookup hws
  have hleave := hlater.of_enter
  dsimp only at hreply
  rw [if_pos (hleave.depth.symm ▸ hdepth)] at hreply
  cases hreply
  rw [hws] at hvs
  cases hvs
  exact ⟨A', hA'.same rfl rfl rfl rfl, hleave, hloaded⟩

end Ledger

/-- However deep queries nest, those that run inside others are answered as they should be. -/
theorem Scheme.resolves_answer (W : Scheme τ) (limit : Nat) : W.Resolves (W.env.answer limit) := by
  induction limit with
  | zero => exact fun _ _ _ _ hrun _ => nomatch hrun
  | succ limit ih =>
    intro A s t q k reply vs hA hdepth hq hcache hrun hvs
    rw [Env.answer, State.answerOnce] at hrun
    split at hrun
    · cases hrun
      cases hvs
    · rw [hcache] at hrun
      exact hA.answerLocal ih hdepth hq hrun hvs

end ResultCache
