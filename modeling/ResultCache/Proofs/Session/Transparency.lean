import Mathlib.Data.Nat.Basic
import ResultCache.Proofs.Cache.Build
import ResultCache.Proofs.Session.History

/-!
# Answers are what the data source holds

Whatever many sessions do over a data source that does not change, a query that returns gives the
rows that the source holds for it (`query_transparent`), with two exceptions. One is a query of
another environment that has the same key. The other is an empty answer for a key that was lost: a
session read it, did not find it, loaded its rows and then flushed the cache, which dropped the rows
but not the memory that the key was missed, so its commit published an absence.
`lost_key_answers_nothing` is such a run.

The invariant (`System.Right`) says that sessions, buffers and caches hold right rows, where the
rows that count as right for a key are those of the askings under that key (`Held`), and that all
objects that callers were given lie in a region that nobody changes.
-/
namespace ResultCache

/-- The rows of the askings under a key. -/
def Held (answer : Answer) (H : ComponentHash) (qs : List Asking) (k : Key) (fs : List Frozen) :
    Prop := ∃ q ∈ qs, q.key H = k ∧ q.rows answer = fs

theorem Held.mono {answer : Answer} {H : ComponentHash} {qs rs : List Asking} {k : Key}
    {fs : List Frozen} (hqs : ∀ q ∈ qs, q ∈ rs) (hh : Held answer H qs k fs) :
    Held answer H rs k fs := by
  obtain ⟨q, hq, hk⟩ := hh
  exact ⟨q, hqs q hq, hk⟩

theorem asked_subset {τ : Type} (e : Moment τ) (past : List (Moment τ)) :
    ∀ q ∈ asked past, q ∈ asked (e :: past) := by
  intro q hq
  obtain ⟨f, hf, hfq⟩ := List.mem_filterMap.1 hq
  exact List.mem_filterMap.2 ⟨f, List.mem_cons_of_mem _ hf, hfq⟩

namespace System

variable {τ : Type} {ids : CacheRef → String} {R : Key → List Frozen → Prop}
  {L : CacheRef → Key → Prop} {K K' : ObjId → Prop} {S : System τ} {answer : Answer}
  {D : DataSource τ} {H : ComponentHash} {qs : List Asking}

/-- Everything that sessions and caches hold is right. -/
structure Right (ids : CacheRef → String) (R : Key → List Frozen → Prop)
    (L : CacheRef → Key → Prop) (K : ObjId → Prop) (S : System τ) : Prop where
  sound : S.heap.Sound
  region : S.heap.Region K
  sessions : ∀ i, (S.sessions i).Right ids R K S.heap
  pool : S.world.pool.Right ids R L K S.heap

theorem Right.mono {R' : Key → List Frozen → Prop} (hRR' : ∀ k fs, R k fs → R' k fs)
    (hS : S.Right ids R L K) : S.Right ids R' L K where
  sound := hS.sound
  region := hS.region
  sessions i := (hS.sessions i).mono hRR'
  pool := hS.pool.mono hRR'

/-- What one session does leaves the others right. -/
theorem Right.back {M : CacheRef → Key → Prop} (hS : S.Right ids R L K) (i : Nat) {s : State τ}
    (hev : Heap.Evolves K S.heap s.heap) (hK' : s.heap.Region K') (hKK' : ∀ o, K o → K' o)
    (hsession : s.session.Right ids R K' s.heap) (hpool : s.world.pool.Right ids R M K' s.heap) :
    (S.back i s).Right ids R M K' := by
  refine ⟨hev.sound, hK', fun j => ?_, hpool⟩
  change (Function.update S.sessions i s.session j).Right ids R K' s.heap
  by_cases hj : j = i
  · subst hj
    rw [Function.update_self]
    exact hsession
  · rw [Function.update_of_ne hj]
    exact (hS.sessions j).of_evolves hS.region hev hKK'

theorem Right.keeps (hS : S.Right ids R L K) (i : Nat) :
    (S.state i).Keeps ids R L K S.heap := ⟨rfl, hS.sessions i, hS.pool⟩

theorem Right.back_of_keeps {M : CacheRef → Key → Prop} (hS : S.Right ids R L K) (i : Nat)
    {s : State τ} (hs : s.Keeps ids R M K S.heap) : (S.back i s).Right ids R M K := by
  have hheap := hs.heap
  apply hS.back i
  · rw [hheap]
    exact .refl hS.sound
  · rw [hheap]
    exact hS.region
  · exact fun _ ho => ho
  · rw [hheap]
    exact hs.session
  · rw [hheap]
    exact hs.pool

/-- What a caller does to objects that it was not given. -/
theorem Right.evolve (hS : S.Right ids R L K) {h : Heap} (hev : Heap.Evolves K S.heap h) :
    System.Right ids R L K { S with world := { S.world with heap := h } } where
  sound := hev.sound
  region := hS.region.of_evolves hev
  sessions i := (hS.sessions i).of_evolves hS.region hev fun _ ho => ho
  pool := hS.pool.of_agreeOn hS.region hev.agree fun _ ho => ho

/-- Whoever finds an entry for a lost key finds an absence. -/
theorem Right.found_of_lost (hS : S.Right ids R L K) {r : CacheRef} {k : Key} (hk : L r k)
    (now : Instant) {e : Entry}
    (he : (Cache.ops.get now S.heap k (S.world.pool.get r)).1 = .ok (some e)) : e = .absence := by
  obtain ⟨hanswers, -⟩ := (Cache.faithful (ids r)).get now k hS.region (hS.pool r)
  obtain ⟨c, hc, hstands⟩ := hanswers.stands e he
  rcases hc with ⟨-, rfl⟩ | ⟨hnot, -⟩
  · cases hstands
    rfl
  · exact absurd hk hnot

/-- A query in a system that is right. -/
theorem Right.query (hS : S.Right ids (Held answer H qs) L K) (hD : D.Steady answer)
    (limit i : Nat) {st : Statement} {param : Value} (w : Window) {q : Asking}
    (hq : q = .ofStatement st param w (S.sessions i).config S.heap) (hknown : param.Known S.heap)
    (hfree : ∀ o, st.Sets param o → ¬ K o) :
    ∃ reply S', S.step (.plain H D) (limit + 1) (.query i st param w) = some (some reply, S') ∧
      S'.Right ids (Held answer H (q :: qs)) L (fun o => K o ∨ reply.reached S'.heap o) ∧
      ∀ vs, reply.result = .ok vs →
        Held answer H (q :: qs) (q.key H) (vs.map S'.heap.freeze) ∨
          vs = [] ∧ ∃ r, st.cache = some r ∧
            L ((S.sessions i).buffers.target S.world.pool r) (q.key H) := by
  have hS' : S.Right ids (Held answer H (q :: qs)) L K :=
    hS.mono fun _ _ => Held.mono fun _ => List.mem_cons_of_mem _
  have hkey : Session.keyOf H S.heap (S.sessions i).config (.ofStatement st param w) = q.key H := by
    rw [Asking.keyOf_eq, hq]
  have hasks : State.Asks answer (Held answer H (q :: qs)) K st param w
      (Session.keyOf H S.heap (S.sessions i).config (.ofStatement st param w)) S.heap := by
    refine ⟨hS.sound, hS.region, hknown, hfree, q, List.mem_cons_self, hkey.symm, ?_⟩
    rw [hq]
    rfl
  obtain ⟨reply, s, hperform, ho⟩ := State.perform_query_right hD H limit (s := S.state i)
    (hS'.sessions i) hasks hS'.pool
  refine ⟨reply, S.back i s, ?_, ?_, fun vs hvs => ?_⟩
  · rw [step, call, hperform]
    rfl
  · exact hS'.back i ho.evolves ((hS.region.of_evolves ho.evolves).or ho.region)
      (fun _ => .inl) ho.session ho.pool
  · rw [← hkey]
    exact ho.answer vs hvs

end System

section History

variable {τ : Type} {past : List (Moment τ)} {e : Moment τ}

/-- Only a reply leads callers to objects. -/
theorem given_cons_none (he : e.reply = none) : Given (e :: past) = Given past := by
  funext o
  apply propext
  constructor
  · intro ho
    obtain ⟨f, hf, reply, hreply, hreach⟩ := ho
    rcases List.mem_cons.1 hf with hf | hf
    · rw [hf, he] at hreply
      cases hreply
    · exact ⟨f, hf, reply, hreply, hreach⟩
  · intro ho
    obtain ⟨f, hf, hreach⟩ := ho
    exact ⟨f, List.mem_cons_of_mem _ hf, hreach⟩

theorem given_cons_some {reply : Reply} (he : e.reply = some reply) :
    Given (e :: past) = fun o => Given past o ∨ reply.reached e.after.heap o := by
  funext o
  apply propext
  constructor
  · intro ho
    obtain ⟨f, hf, reply', hreply, hreach⟩ := ho
    rcases List.mem_cons.1 hf with hf | hf
    · rw [hf, he] at hreply
      cases hreply
      rw [hf] at hreach
      exact .inr hreach
    · exact .inl ⟨f, hf, reply', hreply, hreach⟩
  · intro ho
    rcases ho with ⟨f, hf, hreach⟩ | hreach
    · exact ⟨f, List.mem_cons_of_mem _ hf, hreach⟩
    · exact ⟨e, List.mem_cons_self, reply, he, hreach⟩

end History

namespace System

variable {τ : Type} {ids : CacheRef → String} {answer : Answer} {D : DataSource τ}
  {H : ComponentHash} {limit : Nat} {past : List (Moment τ)} {S S' : System τ}

/-- What is right after some steps: the rows of what was asked, for the keys that were not lost. -/
abbrev RightAfter (ids : CacheRef → String) (answer : Answer) (H : ComponentHash)
    (D : DataSource τ) (past : List (Moment τ)) (S : System τ) : Prop :=
  S.Right ids (Held answer H (asked past)) (Lost D past) (Given past)

/-- A step without a reply. -/
theorem Right.quiet {e : Moment τ} (he : e.reply = none)
    (hS : S.Right ids (Held answer H (asked past)) (Lost D (e :: past)) (Given past)) :
    S.RightAfter ids answer H D (e :: past) := by
  rw [RightAfter, given_cons_none he]
  exact hS.mono fun _ _ => Held.mono (asked_subset e past)

/-- A step that publishes nothing loses no keys. -/
theorem lost_of_unpublished {e : Moment τ} (he : e.published D = .empty) :
    Lost D (e :: past) = Lost D past := by
  rw [Lost, he]
  exact Buffers.lostAfter_empty _

theorem RightAfter.unpublished {e : Moment τ} (hS : S.RightAfter ids answer H D past)
    (hreply : e.reply = none) (he : e.published D = .empty) :
    S.RightAfter ids answer H D (e :: past) := by
  apply Right.quiet hreply
  rw [lost_of_unpublished he]
  exact hS

/-- Every step keeps a system right. -/
theorem RightAfter.step (hD : D.Steady answer) {a : Act} {reply : Option Reply}
    (hS : S.RightAfter ids answer H D past) (ha : a.Legal past S)
    (hstep : S.step (.plain H D) (limit + 1) a = some (reply, S')) :
    S'.RightAfter ids answer H D (⟨a, S, reply, S'⟩ :: past) := by
  cases a with
  | query i st param w =>
    obtain ⟨reply', T, hstep', hT, -⟩ := hS.query hD limit i w rfl ha.1 ha.2
    rw [hstep] at hstep'
    cases hstep'
    rw [RightAfter, given_cons_some rfl, lost_of_unpublished rfl]
    exact hT
  | update i st param =>
    cases hstep
    have hupdate := hS.back_of_keeps i ((hS.keeps i).update hD st param)
    exact RightAfter.unpublished hupdate rfl rfl
  | commit i required =>
    cases hstep
    exact (hS.back_of_keeps i ((hS.keeps i).commit D required hS.region)).quiet rfl
  | rollback i required =>
    cases hstep
    have hrollback := hS.back_of_keeps i ((hS.keeps i).rollback D required hS.region)
    exact RightAfter.unpublished hrollback rfl rfl
  | close i force =>
    cases hstep
    have hclose := hS.back_of_keeps i ((hS.keeps i).close D force hS.region)
    cases force <;> exact hclose.quiet rfl
  | make r =>
    cases hstep
    have hmake := hS.evolve (hS.sound.evolves_alloc hS.region ha)
    exact RightAfter.unpublished hmake rfl rfl
  | write o name v =>
    cases hstep
    have hwrite := hS.evolve (hS.sound.evolves_write ha.1 ha.2 name)
    exact RightAfter.unpublished hwrite rfl rfl
  | wait d =>
    cases hstep
    have hwait : System.RightAfter ids answer H D past
        { S with world := { S.world with now := S.world.now + d } } :=
      ⟨hS.sound, hS.region, hS.sessions, hS.pool⟩
    exact hwait.unpublished rfl rfl

/-- New sessions over existing objects, and caches as they were built. -/
structure Initial (S : System τ) : Prop where
  sound : S.heap.Sound
  sessions : ∀ i, ∃ c walk, S.sessions i = .new c walk
  caches : ∀ r, S.world.pool.get r = default ∨ ∃ now g id config, g.Plain ∧
    Cache.build now g id config = .ok (S.world.pool.get r)

/-- New sessions and caches hold nothing. -/
theorem Initial.right (hS : S.Initial) :
    S.RightAfter (fun r => (S.world.pool.get r).store.id) answer H D [] := by
  have hgiven : Given ([] : List (Moment τ)) = fun _ => False :=
    funext fun o => propext ⟨fun ho => (by obtain ⟨_, hm, _⟩ := ho; cases hm), False.elim⟩
  rw [RightAfter, hgiven]
  refine ⟨hS.sound, S.heap.region_empty, fun i => ?_, fun r => ?_⟩
  · obtain ⟨c, walk, hc⟩ := hS.sessions i
    rw [hc]
    exact ⟨⟨fun _ _ he => (by cases he), fun _ _ hr => (by cases hr), rfl⟩, rfl,
      Buffers.right_empty⟩
  · have hstore : (S.world.pool.get r).store = .perpetual (S.world.pool.get r).store.id := by
      rcases hS.caches r with hr | ⟨now, g, id, config, hg, hr⟩
      · rw [hr]
        rfl
      · have hbuilt := Cache.build_store hg hr
        rw [hbuilt]
        rfl
    exact Stack.holds_of_store hstore

/-- Every run of an initial system stays right. -/
theorem Initial.rightAfter {S₀ : System τ} (h₀ : S₀.Initial) (hD : D.Steady answer)
    (hS : History (.plain H D) (limit + 1) S₀ past S) :
    S.RightAfter (fun r => (S₀.world.pool.get r).store.id) answer H D past := by
  induction hS with
  | start => exact h₀.right
  | step _ ha hstep ih => exact ih.step hD ha hstep

/-- Every query runs, and if it returns, it gives the rows that the data source holds for it; or
those of an earlier query of another environment with the same key; or none, if the key is lost for
the shared cache it asks. A lost key is never found with rows, so the last exception is a real one
whenever there are rows and the cache has not forgotten the key. -/
theorem query_transparent {S₀ : System τ} (h₀ : S₀.Initial) (hD : D.Steady answer)
    (hS : History (.plain H D) (limit + 1) S₀ past S) {i : Nat} {st : Statement} {param : Value}
    {w : Window} (hlegal : (Act.query i st param w).Legal past S) {q : Asking}
    (hq : q = .ofStatement st param w (S.sessions i).config S.heap) :
    (∃ reply S', S.step (.plain H D) (limit + 1) (.query i st param w) = some (some reply, S') ∧
      ∀ vs, reply.result = .ok vs →
        vs.map S'.heap.freeze = q.rows answer ∨
        (∃ p ∈ asked past, p.flat = q.flat ∧ p.environment ≠ q.environment ∧
          vs.map S'.heap.freeze = p.rows answer) ∨
        (vs = [] ∧ ∃ r, st.cache = some r ∧
          Lost D past ((S.sessions i).buffers.target S.world.pool r) (q.key H))) ∧
    ∀ r k now e, Lost D past r k →
      (Cache.ops.get now S.heap k (S.world.pool.get r)).1 = .ok (some e) → e = .absence := by
  have hright := h₀.rightAfter hD hS
  refine ⟨?_, fun r k now e hk he => hright.found_of_lost hk now he⟩
  obtain ⟨reply, S', hstep, -, hanswer⟩ := hright.query hD limit i w hq hlegal.1 hlegal.2
  refine ⟨reply, S', hstep, fun vs hvs => ?_⟩
  rcases hanswer vs hvs with ⟨p, hp, hkey, hrows⟩ | hlost
  · have hflat : p.flat = q.flat := Asking.key_eq_iff.1 hkey
    by_cases henv : p.environment = q.environment
    · rw [← hrows]
      exact .inl (Asking.rows_eq_of_flat answer hflat henv)
    · rcases List.mem_cons.1 hp with hp | hp
      · exact absurd (congrArg (·.environment) hp) henv
      · exact .inr (.inl ⟨p, hp, hflat, henv, hrows.symm⟩)
  · exact .inr (.inr hlost)

end System

/-- A data source with one row, which it gives for every query. -/
def DataSource.oneRow : DataSource Unit where
  query _ _ _ _ h t := (.ok [.ofList [("id", .int 1)]], h, t)
  update _ _ _ h t := (.ok 1, h, t)
  commit t := (.ok (), t)
  rollback t := (.ok (), t)
  close t := t

theorem DataSource.steady_oneRow :
    DataSource.oneRow.Steady fun _ _ _ _ => [.object [("id", .int 1)]] where
  query st param w h t hh _ := by
    have hint : h.freeze (.int 1) = .int 1 := by rw [Heap.freeze, Heap.freezeAlong]
    refine ⟨Nat.le_refl _, fun _ _ _ => rfl, hh, fun rs hrs => ?_⟩
    cases hrs
    refine ⟨?_, by decide, _, h.region_empty, fun r hr => ?_⟩
    · rw [List.map_singleton, Heap.freezeRecord]
      change [Frozen.object [("id", h.freeze (.int 1))]] = _
      rw [hint]
      rfl
    · obtain rfl := List.mem_singleton.1 hr
      refine ⟨by decide, fun p hp => ?_, fun p hp => ?_⟩
      · obtain rfl := List.mem_singleton.1 hp
        decide
      · obtain rfl := List.mem_singleton.1 hp
        exact .int 1
  update _ _ _ _ := rfl

/-- A pool with one cache, if it could be built. -/
def Pool.single (c : Result Cache) : Pool :=
  match c with
  | .ok c => empty.set ⟨0⟩ c
  | .error _ => empty

theorem Pool.get_single (c : Result Cache) (r : CacheRef) :
    (single c).get r = default ∨ c = .ok ((single c).get r) := by
  cases c with
  | error f => exact .inl rfl
  | ok c =>
    by_cases hr : r = ⟨0⟩
    · subst hr
      rw [single, get_set_self]
      exact .inr rfl
    · rw [single, get_set_of_ne empty c hr]
      exact .inl rfl

namespace System

def rowEnv : Env Unit := .plain flatHash .oneRow

/-- New sessions that share a cache, built as it is by default. -/
def newSystem : System Unit :=
  ⟨fun _ => .ofConfig .standard, ⟨.empty, .single (Cache.build 0 .standard "b" .standard), 0, ()⟩⟩

theorem initial_newSystem : newSystem.Initial :=
  ⟨Heap.sound_empty, fun _ => ⟨.standard, .insertion, rfl⟩, fun r => (Pool.get_single _ r).imp_right
    fun hr => ⟨0, .standard, "b", .standard, Registry.standard_plain, hr⟩⟩

def rowQuery : Statement :=
  { Statement.make .select "B.q" "SELECT 1" with
    parameters := [⟨"id", .input⟩]
    cache := some ⟨0⟩ }

def rowUpdate : Statement := { Statement.make .update "B.u" "SELECT 1" with cache := some ⟨0⟩ }

/-- A session loads the row, flushes the cache and commits. -/
def losingActs : List Act :=
  [.query 0 rowQuery (.int 1) .unbounded, .update 0 rowUpdate .null, .commit 0 true]

theorem legal_rowQuery (i : Nat) (past : List (Moment Unit)) (S : System Unit) :
    (Act.query i rowQuery (.int 1) .unbounded).Legal past S :=
  ⟨fun _ ho => (by cases ho), fun _ ho => (by cases ho.2.2)⟩

theorem legal_losingActs : ∀ a ∈ losingActs, ∀ (past : List (Moment Unit)) (S : System Unit),
    a.Legal past S := by
  intro a ha past S
  simp only [losingActs, List.mem_cons, List.not_mem_nil, or_false] at ha
  rcases ha with rfl | rfl | rfl
  · exact legal_rowQuery 0 past S
  · exact trivial
  · exact trivial

/-- Another session then is told that the query has no rows. -/
theorem lost_key_answers_nothing :
    ∃ past S, History rowEnv 1 newSystem past S ∧
      ∃ reply S', S.step rowEnv 1 (.query 1 rowQuery (.int 1) .unbounded) =
          some (some reply, S') ∧ reply.result = .ok [] := by
  have hrun : (((newSystem.steps rowEnv 1 losingActs []).bind fun p =>
      p.2.step rowEnv 1 (.query 1 rowQuery (.int 1) .unbounded)).bind (·.1)).map (·.result) =
      some (.ok []) := by decide +kernel
  obtain ⟨reply, hreply, hres⟩ := Option.map_eq_some_iff.1 hrun
  obtain ⟨⟨_, S'⟩, hstep, rfl⟩ := Option.bind_eq_some_iff.1 hreply
  obtain ⟨⟨past, S⟩, hsteps, hquery⟩ := Option.bind_eq_some_iff.1 hstep
  exact ⟨past, S, History.start.steps legal_losingActs hsteps, reply, S', hquery, hres⟩

theorem query_transparent_losingActs :
    ∃ past S, History rowEnv 1 newSystem past S ∧
      (∃ reply S', S.step rowEnv 1 (.query 1 rowQuery (.int 1) .unbounded) =
          some (some reply, S') ∧
        ∀ vs, reply.result = .ok vs →
          let q : Asking :=
            .ofStatement rowQuery (.int 1) .unbounded (S.sessions 1).config S.heap
          vs.map S'.heap.freeze = [.object [("id", .int 1)]] ∨
          (∃ p ∈ asked past, p.flat = q.flat ∧ p.environment ≠ q.environment ∧
            vs.map S'.heap.freeze = [.object [("id", .int 1)]]) ∨
          (vs = [] ∧ ∃ r, rowQuery.cache = some r ∧ Lost .oneRow past
            ((S.sessions 1).buffers.target S.world.pool r) (q.key ⟨fun _ => 1, rfl⟩))) ∧
      ∀ r k now e, Lost .oneRow past r k →
        (Cache.ops.get now S.heap k (S.world.pool.get r)).1 = .ok (some e) → e = .absence := by
  have hrun : (newSystem.steps rowEnv 1 losingActs []).isSome = true := by decide +kernel
  obtain ⟨⟨past, S⟩, hsteps⟩ := Option.isSome_iff_exists.1 hrun
  have hS := History.start.steps legal_losingActs hsteps
  obtain ⟨hquery, hfound⟩ := query_transparent initial_newSystem DataSource.steady_oneRow hS
    (legal_rowQuery 1 past S) rfl
  exact ⟨past, S, hS, hquery, hfound⟩

end System

end ResultCache
