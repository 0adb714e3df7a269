import Mathlib.Data.List.Nodup
import ResultCache.Proofs.Session.Resolving

/-!
# When the outermost query is answered

What waits is set when the outermost query is answered: no key is loading any more, so all results
are there (`Ledger.Fits.loadAll`), and every nested property has its value (`Ledger.Complete`). So a
session that was only asked queries of a scheme, between which its user made objects and changed
objects of its own, has a complete ledger (`Scheme.Queried.complete`).
-/
namespace ResultCache

variable {τ : Type} {W : Scheme τ} {A A' : Ledger} {s t : State τ} {o : ObjId} {T : Told}
  {r : Record} {k : Key} {n : NestedSelect}

theorem Heap.read_write_of {h : Heap} {o p : ObjId} {name other : String} (v : Value)
    (hne : ¬ (p = o ∧ other = name)) : (h.write o name v).read p other = h.read p other := by
  by_cases hp : p = o
  · subst hp
    exact read_write_of_ne h p v fun he => hne ⟨rfl, he⟩
  · rw [read, read, record?_write_of_ne h name v hp]

/-- Every object of every result that the session holds carries all nested properties of its
statement, each with the value that the results held for the nested key give it. -/
def State.Resolved (H : ComponentHash) (ns : String → List NestedSelect) (s : State τ) : Prop :=
  ∀ k e, s.session.loaded.get? k = some e → ∃ os : List ObjId, e = .rows (os.map .object) ∧
    ∀ id, k.components.head? = some (.text id) → ∀ o ∈ os, ∀ n ∈ ns id,
      s.Done o n (Session.keyOf H s.heap s.session.config (n.query o s.heap))

namespace Ledger

/-- The select of a property is the only one of its name. -/
theorem select_unique {m : NestedSelect} (hn : n ∈ W.selects T) (hm : m ∈ W.selects T)
    (he : m.property = n.property) : m = n :=
  List.inj_on_of_nodup_map (W.names _) hm hn he

/-- Filled objects stay filled when the first property that waits is set. -/
theorem Filled.settle {p : ObjId} (hp : A.Filled W s p) (hr : A.Row o T r) (hn : n ∈ W.selects T)
    (ho : o.index < s.heap.size) {ws : List Value} {v : Value}
    (hws : s.session.loaded.get? (W.nestedKey T n r) = some (.rows ws))
    (hv : n.target.extract ws = .ok v)
    (hdeferred : s.session.deferred =
      ⟨o, n.property, W.nestedKey T n r, n.target⟩ :: t.session.deferred)
    (hloaded : t.session.loaded = s.session.loaded)
    (hheap : t.heap = s.heap.write o n.property v) : A.Filled W t p := by
  intro T' r' hr' m hm
  by_cases hsame : p = o ∧ m.property = n.property
  · obtain ⟨rfl, hname⟩ := hsame
    obtain ⟨rfl, rfl⟩ := hr.unique hr'
    obtain rfl := select_unique hn hm hname
    have hread : t.heap.read p m.property = some v := by
      rw [hheap]
      exact Heap.read_write_self ho _ _
    exact .inl ⟨ws, v, hloaded ▸ hws, hv, hread⟩
  · rcases hp T' r' hr' m hm with ⟨ws', v', hws', hv', hread⟩ | hd
    · refine .inl ⟨ws', v', hloaded ▸ hws', hv', ?_⟩
      rw [hheap, Heap.read_write_of v hsame, hread]
    · rw [hdeferred] at hd
      rcases List.mem_cons.1 hd with hd | hd
      · exact absurd ⟨congrArg (·.object) hd, congrArg (·.property) hd⟩ hsame
      · exact .inr hd

/-- The first property that waits is set to what the results for its key give. -/
theorem Fits.settle (hA : A.Fits W s) (hmarks : ∀ j, s.session.loaded.get? j ≠ some .loading)
    {d : Session.Deferred} {ds : List Session.Deferred} (hds : s.session.deferred = d :: ds)
    {h : Heap} (hload : d.load s.session.loaded s.heap = (.ok (), h)) :
    A.Fits W ⟨{ s.session with deferred := ds }, { s.world with heap := h }⟩ ∧
      h.size = s.heap.size := by
  have hwaits := hA.waits d (hds ▸ List.mem_cons_self)
  obtain ⟨o, T, r, n, hr, hn, rfl⟩ := hwaits.nested
  obtain ⟨e, he⟩ := Option.isSome_iff_exists.1 hwaits.asked
  obtain ⟨T', -, hholds⟩ := hA.held he
  obtain ⟨ws, rfl⟩ : ∃ ws, e = .rows ws := by
    cases hholds with
    | loading => exact absurd he (hmarks _)
    | rows => exact ⟨_, rfl⟩
  obtain ⟨v, hv, rfl⟩ := Session.Deferred.load_eq_ok he hload
  dsimp only at he
  obtain ⟨k, i, ho, hT, hi⟩ := id hr
  have hother : ∀ {p x}, A.home p = some x → x ≠ .row k i →
      (s.heap.write o n.property v).record? p = s.heap.record? p := fun hp hx =>
    Heap.record?_write_of_ne _ _ _ fun he => by
      rw [he, ho] at hp
      exact hx (Option.some.inj hp).symm
  let t : State τ :=
    ⟨{ s.session with deferred := ds }, { s.world with heap := s.heap.write o n.property v }⟩
  have hfill : ∀ {p}, A.Filled W s p → A.Filled W t p := fun hp =>
    hp.settle hr hn (hA.known ho) he hv hds rfl rfl
  refine ⟨⟨hA.sound, hA.config, fun p hp => ?_, fun hp => ?_, hA.asked, fun {j T' p} hT' hp => ?_,
    fun {p T' r'} hr' name hname => ?_, fun {j e'} he' => ?_, fun d hd => ?_⟩,
    Heap.size_write _ _ _ _⟩
  · have hne : p ≠ o := fun he => by
      rw [← he, hA.sound.shared hp] at ho
      cases ho
    exact (Heap.record?_write_of_ne _ _ _ hne).trans (hA.given p hp)
  · exact Nat.lt_of_lt_of_eq (hA.known hp) (Heap.size_write _ _ _ _).symm
  · exact (hother (hA.sound.answer.2 ⟨T', hT', hp⟩) fun he => nomatch he).trans (hA.made hT' hp)
  · refine Eq.trans (Heap.read_write_of v ?_) (hA.columns hr' name hname)
    rintro ⟨rfl, rfl⟩
    obtain ⟨rfl, rfl⟩ := hr.unique hr'
    exact hname n hn rfl
  · obtain ⟨T', hT', hholds'⟩ := hA.held he'
    exact ⟨T', hT', hholds'.imp hfill⟩
  · have hwait := hA.waits d (hds ▸ List.mem_cons_of_mem _ hd)
    exact ⟨hwait.asked, hwait.nested⟩

/-- Everything that waits is set. -/
theorem Fits.loadAll (hA : A.Fits W s) (hmarks : ∀ j, s.session.loaded.get? j ≠ some .loading)
    {ds : List Session.Deferred} (hds : s.session.deferred = ds) {h : Heap}
    (hload : Session.Deferred.loadAll s.session.loaded ds s.heap = (.ok (), h)) :
    A.Fits W ⟨{ s.session with deferred := [] }, { s.world with heap := h }⟩ ∧
      h.size = s.heap.size := by
  induction ds generalizing s with
  | nil =>
    cases hload
    exact ⟨hA.same rfl rfl hds.symm rfl, rfl⟩
  | cons d ds ih =>
    rw [Session.Deferred.loadAll] at hload
    split at hload
    · rename_i i hi
      obtain ⟨hfits, hsize⟩ := hA.settle hmarks hds hi
      obtain ⟨hall, hsize'⟩ := ih hfits hmarks rfl hload
      exact ⟨hall, hsize'.trans hsize⟩
    · cases hload

/-- The ledger of a session that answers no query: every nested property is done. -/
structure Complete (W : Scheme τ) (A : Ledger) (s : State τ) : Prop where
  fits : A.Fits W s
  depth : s.session.depth = 0
  marks : ∀ j, s.session.loaded.get? j ≠ some .loading
  deferred : s.session.deferred = []

/-- When the outermost query is answered, its rows are the reply and nothing waits. -/
theorem Fits.finish (hA : A.Fits W s) (hdepth : s.session.depth = 0)
    (hmarks : ∀ j, s.session.loaded.get? j ≠ some .loading) {reply reply' : Reply}
    {vs : List Value} (hrun : s.finish reply = (reply', t)) (hvs : reply'.result = .ok vs) :
    reply.result = .ok vs ∧ A.Complete W t ∧ t.session.loaded = s.session.loaded ∧
      t.heap.size = s.heap.size := by
  rw [State.finish] at hrun
  cases hres : reply.result with
  | error f =>
    rw [hres] at hrun
    cases hrun
    rw [hres] at hvs
    cases hvs
  | ok ws =>
    rw [hres, State.drain] at hrun
    obtain ⟨⟨r, h⟩, hload⟩ : ∃ x, Session.Deferred.loadAll s.session.loaded s.session.deferred
        s.heap = x := ⟨_, rfl⟩
    rw [hload] at hrun
    have hscope : ¬ s.session.config.scope = .statement := by
      rw [hA.config, W.scope]
      decide
    dsimp only [State.withHeap] at hrun
    rw [if_neg hscope] at hrun
    cases hrun
    cases r with
    | error f => cases hvs
    | ok _ =>
      cases hvs
      obtain ⟨hfits, hsize⟩ := hA.loadAll hmarks rfl hload
      exact ⟨rfl, ⟨hfits, hdepth, hmarks, rfl⟩, rfl, hsize⟩

/-- Restoring output parameters changes only what the query sets. -/
theorem restoreOutputs_sets (q : Query) (k : Key) (s : State τ) :
    ∃ h, s.restoreOutputs q k = s.withHeap h ∧ h.size = s.heap.size ∧
      ∀ p, ¬ q.Sets p → h.record? p = s.heap.record? p := by
  have hsame : ∃ h, s = s.withHeap h ∧ h.size = s.heap.size ∧
      ∀ p, ¬ q.Sets p → h.record? p = s.heap.record? p := ⟨s.heap, rfl, rfl, fun _ _ => rfl⟩
  rw [State.restoreOutputs]
  split
  · rename_i hcall
    split
    · rename_i r o hr ho
      exact ⟨_, rfl, Heap.size_setAll _ _ _ _, fun p hp => q.record?_setAll hcall ho r s.heap hp⟩
    · exact hsame
  · exact hsame

/-- What an outermost query brings about before what waits is set. -/
theorem Complete.lookup (hA : A.Complete W s) {nested : Answering τ} (hnested : W.Resolves nested)
    {q : Query} (hk : W.keyOf s.heap q = k)
    (hsets : ∀ o, q.Sets o → A.home o = none ∧ ¬ W.shared o) {reply : Reply} {vs : List Value}
    (hrun : s.enter.lookup W.env nested q k false = some (reply, t))
    (hvs : reply.result = .ok vs) : A.Brings W s k vs t.leave := by
  have henter : A.Fits W s.enter := hA.fits.same rfl rfl rfl rfl
  cases he : s.session.loaded.get? k with
  | none =>
    obtain ⟨A', hA', hlater, hloaded⟩ :=
      henter.lookup hnested (Nat.succ_pos _) ⟨hk, he, hsets⟩ hrun hvs
    exact ⟨A', hA'.same rfl rfl rfl rfl, hlater.of_enter, hloaded⟩
  | some e =>
    obtain ⟨T, hT, hholds⟩ := hA.fits.held he
    cases hholds with
    | loading => exact absurd he (hA.marks k)
    | @rows os hos hlen hfilled =>
      have he' : s.enter.session.loaded.get? k = some (.rows (os.map .object)) := he
      obtain ⟨h, hrestore, hsize, hrecords⟩ := restoreOutputs_sets q k s.enter
      rw [State.lookup, if_neg Bool.false_ne_true, he'] at hrun
      dsimp only [Entry.results?] at hrun
      rw [hrestore] at hrun
      cases hrun
      cases hvs
      have hhomed : ∀ {o x}, A.home o = some x → h.record? o = s.heap.record? o := fun ho =>
        hrecords _ fun hset => by
          rw [(hsets _ hset).1] at ho
          cases ho
      refine ⟨A, hA.fits.apart rfl rfl rfl (Nat.le_of_eq hsize.symm)
        (fun o ho => hrecords o fun hset => (hsets o hset).2 ho) hhomed, ?_, he⟩
      exact .quiet (Nat.add_sub_cancel ..) rfl (Nat.le_of_eq hsize.symm) (fun ho _ => hhomed ho)
        fun _ hd => hd

/-- An outermost query keeps the ledger complete, and the session holds its rows. -/
theorem Complete.query (hA : A.Complete W s) {q : Query} {limit : Nat} {reply : Reply}
    {vs : List Value} (hflushes : q.statement.flushes = false)
    (hcache : s.session.sharedCache q.statement = none)
    (hsets : ∀ o, q.Sets o → A.home o = none ∧ ¬ W.shared o)
    (hrun : W.env.perform limit (.query q none false) s = some (reply, t))
    (hvs : reply.result = .ok vs) :
    ∃ A' : Ledger, A'.Complete W t ∧ s.heap.size ≤ t.heap.size ∧
      (∀ o, o.index < s.heap.size → A'.home o = A.home o) ∧
      (∀ j e, s.session.loaded.get? j = some e → t.session.loaded.get? j = some e) ∧
      t.session.loaded.get? (W.keyOf s.heap q) = some (.rows vs) := by
  have hkey : Session.keyOf W.env.hash s.heap s.session.config q = W.keyOf s.heap q := by
    rw [hA.fits.config]
    rfl
  rw [Env.perform, Call.run, State.key] at hrun
  split at hrun
  · rename_i k hk
    obtain rfl : W.keyOf s.heap q = k := by
      cases hopen : s.session.ensureOpen with
      | error f =>
        rw [hopen] at hk
        cases hk
      | ok _ =>
        rw [hopen] at hk
        exact hkey.symm.trans (Except.ok.inj hk)
    cases limit with
    | zero => cases hrun
    | succ limit =>
      rw [Env.answer, State.answerOnce] at hrun
      split at hrun
      · cases hrun
        cases hvs
      · rw [hcache, State.answerLocal, hflushes, Bool.and_false, if_neg Bool.false_ne_true] at hrun
        obtain ⟨⟨r, u⟩, hlookup, hreply⟩ := Option.map_eq_some_iff.1 hrun
        obtain ⟨ws, hws⟩ := rows_of_answered hreply hvs
        obtain ⟨A', hA', hlater, hloaded⟩ :=
          hA.lookup (W.resolves_answer limit) rfl hsets hlookup hws
        have hdepth : u.leave.session.depth = 0 := hlater.depth.trans hA.depth
        have hmarks : ∀ j, u.leave.session.loaded.get? j ≠ some .loading := fun j hj =>
          (hlater.marks hj).elim (hA.marks j) fun he => by cases he
        dsimp only at hreply
        rw [if_neg (hdepth ▸ Nat.lt_irrefl 0)] at hreply
        obtain ⟨hrows, hcomplete, hsame, hsize⟩ := hA'.finish hdepth hmarks hreply hvs
        rw [hws] at hrows
        cases hrows
        refine ⟨A', hcomplete, hsize ▸ hlater.size_le, fun o ho => hlater.home ho,
          fun j e he => hsame ▸ hlater.loaded he, hsame ▸ hloaded⟩
  · cases hrun
    cases hvs

/-- What a session with a complete ledger holds for a key that was told. -/
theorem Complete.rows_of_told (hA : A.Complete W s) (hT : A.told k = some T) :
    ∃ os : List ObjId, s.session.loaded.get? k = some (.rows (os.map .object)) ∧ A.Lists k os ∧
      os.length = T.rows.length ∧ ∀ o ∈ os, A.Filled W s o := by
  obtain ⟨e, he⟩ := Option.isSome_iff_exists.1 (hA.fits.asked hT)
  obtain ⟨T', hT', hholds⟩ := hA.fits.held he
  obtain rfl := Option.some.inj (hT.symm.trans hT')
  cases hholds with
  | loading => exact absurd he (hA.marks k)
  | rows hos hlen hfilled => exact ⟨_, he, hos, hlen, hfilled⟩

theorem Complete.told_of_rows (hA : A.Complete W s) {e : Entry}
    (he : s.session.loaded.get? k = some e) :
    ∃ T os, A.told k = some T ∧ e = .rows (os.map .object) ∧ A.Lists k os ∧
      os.length = T.rows.length := by
  obtain ⟨T, hT, -⟩ := hA.fits.held he
  obtain ⟨os, hos, hlists, hlen, -⟩ := hA.rows_of_told hT
  rw [he] at hos
  exact ⟨T, os, hT, Option.some.inj hos, hlists, hlen⟩

/-- All nested properties of an object that was made of a row are done. -/
theorem Complete.done (hA : A.Complete W s) (hr : A.Row o T r) (hn : n ∈ W.selects T) :
    s.Done o n (W.nestedKey T n r) := by
  obtain ⟨k, i, ho, hT, -⟩ := id hr
  obtain ⟨os, -, hos, -, hfilled⟩ := hA.rows_of_told hT
  have hmem : o ∈ os := List.mem_of_getElem? ((hos i o).2 ho)
  refine (hfilled o hmem T r hr n hn).resolve_right fun hd => ?_
  rw [hA.deferred] at hd
  exact absurd hd List.not_mem_nil

/-- With a complete ledger every nested property of every result has its value. -/
theorem Complete.resolved (hA : A.Complete W s) : s.Resolved W.hash W.nested := by
  intro k e he
  obtain ⟨T, os, hT, rfl, hos, -⟩ := hA.told_of_rows he
  refine ⟨os, rfl, fun id hid o ho n hn => ?_⟩
  obtain rfl : id = T.query.statement.id := by
    have hhead := Query.head?_components_keyOf W.hash T.before W.config T.query
    rw [← (hA.fits.sound.answers hT).key, Scheme.keyOf, hhead] at hid
    cases hid
    rfl
  obtain ⟨i, hi⟩ := List.mem_iff_getElem?.1 ho
  have hhome := (hos i o).1 hi
  obtain ⟨T', r, hT', hr⟩ := hA.fits.sound.row hhome
  obtain rfl := Option.some.inj (hT.symm.trans hT')
  have hrow : A.Row o T r := ⟨k, i, hhome, hT, hr⟩
  have hkey := hA.fits.keyOf_query hrow hn
  rw [Scheme.keyOf, ← hA.fits.config] at hkey
  rw [hkey]
  exact hA.done hrow hn

theorem complete_empty {walk : Buffers.Walk} (hsession : s.session = .new W.config walk)
    (hgiven : Heap.AgreeOn W.shared W.given s.heap) : empty.Complete W s := by
  have hloaded : ∀ k, s.session.loaded.get? k = none := fun k => by
    rw [hsession]
    rfl
  have hdeferred : s.session.deferred = [] := by rw [hsession]; rfl
  refine ⟨⟨⟨fun hT => (by cases hT), ⟨fun ho => (by cases ho), ?_⟩, fun ho => (by cases ho),
    fun _ => rfl⟩, by rw [hsession]; rfl, hgiven, fun ho => (by cases ho), fun hT => (by cases hT),
    fun hT => (by cases hT), ?_, fun he => ?_, fun d hd => ?_⟩, by rw [hsession]; rfl,
    fun j hj => ?_, hdeferred⟩
  · rintro ⟨T, hT, -⟩
    cases hT
  · rintro o T r ⟨k, i, ho, -⟩
    cases ho
  · rw [hloaded] at he
    cases he
  · rw [hdeferred] at hd
    exact absurd hd List.not_mem_nil
  · rw [hloaded] at hj
    cases hj

end Ledger

namespace Scheme

/-- A query from outside gives rows. It sets only properties of objects that are the caller's. -/
structure Gives (W : Scheme τ) (mine : ObjId → Prop) (s : State τ) (q : Query) (vs : List Value)
    (t : State τ) : Prop where
  flushes : q.statement.flushes = false
  unshared : s.session.sharedCache q.statement = none
  sets : ∀ o, q.Sets o → mine o
  runs : ∃ limit reply, W.env.perform limit (.query q none false) s = some (reply, t) ∧
    reply.result = .ok vs

/-- A session that was asked queries only, none of which failed, and the objects that are its
caller's. Between the queries the caller may make objects and change its own, and anything may
happen to the rest of the world. -/
inductive Queried (W : Scheme τ) : (ObjId → Prop) → State τ → Prop where
  | start {s : State τ} {walk : Buffers.Walk} (hsession : s.session = .new W.config walk)
      (hgiven : Heap.AgreeOn W.shared W.given s.heap) :
      Queried W (fun o => o.index < s.heap.size ∧ ¬ W.shared o) s
  | query {mine : ObjId → Prop} {s t : State τ} {q : Query} {vs : List Value}
      (hs : Queried W mine s) (hq : W.Gives mine s q vs t) : Queried W mine t
  | outside {mine : ObjId → Prop} {s : State τ} {w : World τ} (hs : Queried W mine s)
      (hsize : s.heap.size ≤ w.heap.size)
      (hothers : ∀ o, o.index < s.heap.size → ¬ mine o → w.heap.record? o = s.heap.record? o) :
      Queried W (fun o => mine o ∨ s.heap.Fresh w.heap o) ⟨s.session, w⟩

/-- The ledger of a session that was only asked queries is complete, and none of the objects of its
caller is in it. -/
theorem Queried.complete {mine : ObjId → Prop} (hs : W.Queried mine s) :
    ∃ A : Ledger, A.Complete W s ∧
      ∀ o, mine o → o.index < s.heap.size ∧ A.home o = none ∧ ¬ W.shared o := by
  induction hs with
  | start hsession hgiven =>
    exact ⟨.empty, Ledger.complete_empty hsession hgiven, fun o ho => ⟨ho.1, rfl, ho.2⟩⟩
  | query hs hq ih =>
    obtain ⟨A, hA, hmine⟩ := ih
    obtain ⟨limit, reply, hrun, hvs⟩ := hq.runs
    obtain ⟨A', hA', hsize, hhome, -, -⟩ := hA.query hq.flushes hq.unshared
      (fun o ho => (hmine o (hq.sets o ho)).2) hrun hvs
    refine ⟨A', hA', fun o ho => ?_⟩
    obtain ⟨hknown, hnone, hshared⟩ := hmine o ho
    exact ⟨Nat.lt_of_lt_of_le hknown hsize, (hhome o hknown).trans hnone, hshared⟩
  | @outside mine s w hs hsize hothers ih =>
    obtain ⟨A, hA, hmine⟩ := ih
    have hhomed : ∀ {o x}, A.home o = some x → w.heap.record? o = s.heap.record? o := fun ho =>
      hothers _ (hA.fits.known ho) fun hm => by
        rw [(hmine _ hm).2.1] at ho
        cases ho
    have hshared : ∀ o, W.shared o → o.index < s.heap.size := fun o ho => hA.fits.shared_known ho
    have hfits : A.Fits W ⟨s.session, w⟩ := hA.fits.apart rfl rfl rfl hsize
      (fun o ho => hothers o (hshared o ho) fun hm => (hmine o hm).2.2 ho) hhomed
    refine ⟨A, ⟨hfits, hA.depth, hA.marks, hA.deferred⟩, fun o ho => ?_⟩
    rcases ho with ho | ho
    · obtain ⟨hknown, hnone, hs⟩ := hmine o ho
      exact ⟨Nat.lt_of_lt_of_le hknown hsize, hnone, hs⟩
    · refine ⟨ho.2, ?_, fun hs => Nat.not_lt.2 ho.1 (hshared o hs)⟩
      exact Option.eq_none_iff_forall_ne_some.2 fun x hx => Nat.not_lt.2 ho.1 (hA.fits.known hx)

/-- The session holds what a query gave, and all that it held before. -/
theorem Queried.loaded {mine : ObjId → Prop} (hs : W.Queried mine s) {q : Query}
    {vs : List Value} (hq : W.Gives mine s q vs t) :
    t.session.loaded.get? (W.keyOf s.heap q) = some (.rows vs) ∧
      ∀ k e, s.session.loaded.get? k = some e → t.session.loaded.get? k = some e := by
  obtain ⟨A, hA, hmine⟩ := hs.complete
  obtain ⟨limit, reply, hrun, hvs⟩ := hq.runs
  obtain ⟨A', -, -, -, hkept, hrows⟩ := hA.query hq.flushes hq.unshared
    (fun o ho => (hmine o (hq.sets o ho)).2) hrun hvs
  exact ⟨hrows, hkept⟩

end Scheme

end ResultCache
