import ResultCache.Proofs.Session.Outermost
import ResultCache.Proofs.Session.Traffic

/-!
# Units of work clean up behind themselves

A session ends its unit of work by a rollback, a close or a commit. The call may report a fault, and
the layers below may fail in any way: its results are dropped, its buffers are empty, and it has
given back every lock it took (`System.CleanedUp`). For it ends all its buffers one after the other
(`Buffers.get_commitAll_eq`, `Buffers.get_rollbackAll_eq`), each by a call that is made whatever the
others report (`Fleet.callEach_eq`), and a lock belongs to a key that its taker still misses
(`Crew.exists_taker`).

The exception is a commit that the data source refuses. It drops the results of the session, and
everything else is as it was, so a later commit publishes what this one would have published
(`System.CommitRefused`).
-/
namespace ResultCache

variable {τ : Type}

/-- An empty buffer has nothing to end. -/
theorem WorkCall.run_empty {ρ : Type} {C : CacheOps ρ} {c : WorkCall} (hc : c.Ends) (x : ρ) :
    (c.run C (.empty, x)).2 = x := by
  cases c with
  | commit now h w =>
    rw [run, w.order_empty]
    rfl
  | rollback now h w =>
    rw [run, w.order_empty]
    rfl
  | get now h k => exact hc.elim
  | put k e => exact hc.elim
  | clear => exact hc.elim
  | release now h k => exact hc.elim

namespace Crew

variable {σ : Type} {B : CacheOps σ} {timeout : Option Nat} {below : σ}
  {past : List (Nat × WorkCall)} {i : Nat}

/-- A unit of work at rest has no lock. -/
theorem taker_ne_of_ended (hi : Ended past i) {k : Key}
    (hk : k ∈ (after B (start timeout below) past).held) :
    taker B (start timeout below) past k ≠ some i := by
  intro htaker
  obtain ⟨j, hj, hmissed⟩ := exists_taker past hk
  obtain rfl : j = i := Option.some.inj (hj.symm.trans htaker)
  have hempty : (after B (start timeout below) past).units j = .empty := units_of_ended hi
  rw [missed, hempty] at hmissed
  exact List.not_mem_nil hmissed

theorem ended_of_ends {c : WorkCall} (hc : c.Ends) : Ended ((i, c) :: past) i := by
  rw [Ended, if_pos rfl]
  exact hc

end Crew

/-- Units of work in front of many caches that lock keys, and what each cache was asked so far. -/
structure Fleet (σ : Type) where
  timeout : CacheRef → Option Nat
  below : CacheRef → σ
  past : CacheRef → List (Nat × WorkCall)

namespace Fleet

variable {σ : Type} {B : CacheOps σ} {F : Fleet σ} {i : Nat} {c : Instant → WorkCall}

/-- The units of work in front of one of the caches. -/
def crew (B : CacheOps σ) (F : Fleet σ) (r : CacheRef) : Crew σ :=
  Crew.after B (.start (F.timeout r) (F.below r)) (F.past r)

def taker (B : CacheOps σ) (F : Fleet σ) (r : CacheRef) (k : Key) : Option Nat :=
  Crew.taker B (.start (F.timeout r) (F.below r)) (F.past r) k

/-- One unit of work calls all its buffers. -/
def call (i : Nat) (c : CacheRef → WorkCall) (F : Fleet σ) : Fleet σ :=
  { F with past := fun r => (i, c r) :: F.past r }

/-- A unit of work that calls its buffers one after the other calls them all, each at some moment,
whatever the caches answer. -/
theorem callEach_eq (hc : ∀ t, (c t).Ends) {es : List (String × CacheRef × Buffer)}
    (hes : (es.map (·.2.1)).Nodup) (hfront : ∀ r, Buffers.inFront es r = (F.crew B r).units i)
    (now : Instant) :
    ∃ t : CacheRef → Instant, ∀ r,
      Buffers.callEach (Gate.ops B) c now es (fun r => (F.crew B r).cache) r =
        ((F.call i fun r => c (t r)).crew B r).cache := by
  have hempty : ∀ t (x : Gate × σ), ((c t).run (Gate.ops B) (.empty, x)).2 = x := fun t x =>
    WorkCall.run_empty (hc t) x
  choose t ht using Buffers.callEach_apply hempty hes now fun r => (F.crew B r).cache
  refine ⟨t, fun r => ?_⟩
  rw [ht r, hfront r]
  rfl

/-- Then it has nothing left to do and no lock of any cache. -/
theorem call_rest (hc : ∀ t, (c t).Ends) (t : CacheRef → Instant) (r : CacheRef) :
    (((F.call i fun r => c (t r)).crew B r).units i).isPending = false ∧
      ∀ k ∈ ((F.call i fun r => c (t r)).crew B r).held,
        (F.call i fun r => c (t r)).taker B r k ≠ some i := by
  have hended : Crew.Ended ((F.call i fun r => c (t r)).past r) i := Crew.ended_of_ends (hc (t r))
  refine ⟨?_, fun k hk => Crew.taker_ne_of_ended hended hk⟩
  rw [crew, Crew.units_of_ended hended]
  exact Buffer.isPending_empty

end Fleet

@[simp] theorem Buffers.hasPending_emptied (bs : Buffers) : bs.emptied.hasPending = false := by
  simp [hasPending, emptied]

/-- Whether the data source lets a unit of work commit, or is not asked. -/
def DataSource.LetsCommit (D : DataSource τ) (required : Bool) (t : τ) : Prop :=
  required = true → (D.commit t).1 = .ok ()

/-- The data source after a commit. -/
def DataSource.afterCommit (D : DataSource τ) (required : Bool) (t : τ) : τ :=
  if required then (D.commit t).2 else t

theorem Session.clearLoaded_of_open {s : Session} (hs : s.closed = false) :
    s.clearLoaded = { s with loaded := .empty, outputs := .empty } := by
  rw [clearLoaded, if_neg (by simp [hs])]

namespace State

variable {s t : State τ} {c : Instant → Buffer.Walk → WorkCall} {D : DataSource τ}

/-- The data source is in another state. -/
def withSource (t : τ) (s : State τ) : State τ := { s with world := { s.world with source := t } }

theorem pending_of_empties (h : s.Empties c t) : t.session.buffers.hasPending = false := by
  obtain ⟨bs, -, hbuffers⟩ := h.buffers
  rw [hbuffers]
  exact Buffers.hasPending_emptied bs

theorem rollbackLocal_buffers (D : DataSource τ) (required : Bool) (s : State τ) :
    (s.rollbackLocal D required).2.session.buffers = s.session.buffers ∧
      (s.rollbackLocal D required).2.world.pool = s.world.pool ∧
      (s.rollbackLocal D required).2.world.heap = s.world.heap := by
  have hbuffers : s.clearLoaded.session.buffers = s.session.buffers := s.session.buffers_clearLoaded
  cases required with
  | true => exact ⟨hbuffers, rfl, rfl⟩
  | false => exact ⟨hbuffers, rfl, rfl⟩

/-- A rollback empties the buffers, whether or not the data source takes it. -/
theorem empties_of_rollback (hs : s.session.closed = false) (D : DataSource τ) (required : Bool) :
    s.Empties (fun now => .rollback now s.world.heap) (s.rollback D required).2 := by
  obtain ⟨hbuffers, hpool, hheap⟩ := rollbackLocal_buffers D required s
  rw [rollback, ensureOpen_eq hs, ← hheap]
  exact (empties_rollback (s.rollbackLocal D required).2).of_eq hbuffers hpool rfl rfl

/-- So does a close by force, and any other close publishes what they hold. -/
theorem empties_of_close (hs : s.session.closed = false) (D : DataSource τ) (force : Bool) :
    s.Empties (fun now w =>
        if force then .rollback now s.world.heap w else .commit now s.world.heap w)
      (s.close D force).2 := by
  rw [close, if_neg (by simp [hs])]
  cases force with
  | true =>
    obtain ⟨hbuffers, hpool, -⟩ := rollbackLocal_buffers D true s.rollbackBuffers
    exact (empties_rollback s).of_eq rfl rfl hbuffers hpool
  | false =>
    obtain ⟨hbuffers, hpool, -⟩ := rollbackLocal_buffers D false s.commitBuffers.2
    exact (empties_commit s).of_eq rfl rfl hbuffers hpool

/-- A commit that goes through publishes the buffers of the cleared session. The data source has no
part in what it reports and leaves. -/
theorem commit_withSource (hs : s.session.closed = false) {required : Bool} {t : τ}
    (ht : D.LetsCommit required t) :
    (s.withSource t).commit D required = (s.clearLoaded.commitBuffers.1,
      s.clearLoaded.commitBuffers.2.withSource (D.afterCommit required t)) := by
  have hopen : ¬ (s.withSource t).session.closed = true := by simp [withSource, hs]
  rw [commit, if_neg hopen]
  cases required with
  | false => rfl
  | true =>
    have hsource : (s.withSource t).clearLoaded.source D.commit =
        (.ok (), s.clearLoaded.withSource (D.commit t).2) :=
      Prod.ext (ht rfl) rfl
    rw [if_pos rfl, hsource]
    rfl

theorem empties_of_commit (hs : s.session.closed = false) {required : Bool}
    (ht : D.LetsCommit required s.world.source) :
    s.Empties (fun now => .commit now s.world.heap) (s.commit D required).2 := by
  have hcommit := commit_withSource hs ht
  have hsame : s.withSource s.world.source = s := rfl
  rw [hsame] at hcommit
  rw [hcommit]
  exact (empties_commit s.clearLoaded).of_eq s.session.buffers_clearLoaded rfl rfl rfl

/-- A commit that the data source refuses only clears the session. -/
theorem commit_refused (hs : s.session.closed = false) {f : Fault}
    (hf : (D.commit s.world.source).1 = .error f) :
    s.commit D true = (.error f, s.clearLoaded.withSource (D.commit s.world.source).2) := by
  have hopen : ¬ s.session.closed = true := by simp [hs]
  have hsource : s.clearLoaded.source D.commit =
      (.error f, s.clearLoaded.withSource (D.commit s.world.source).2) :=
    Prod.ext hf rfl
  rw [commit, if_neg hopen, if_pos rfl, hsource]

end State

namespace System

variable {env : Env τ} {limit i : Nat} {S : System τ}

/-- The data source is in another state. -/
def withSource (t : τ) (S : System τ) : System τ := { S with world := { S.world with source := t } }

/-- Another session stands in the place of one. -/
def withSession (i : Nat) (s : Session) (S : System τ) : System τ :=
  { S with sessions := Function.update S.sessions i s }

@[simp] theorem sessions_withSession (i : Nat) (s : Session) (S : System τ) :
    (S.withSession i s).sessions i = s := Function.update_self _ _ _

theorem state_withSession (i : Nat) (s : Session) (t : τ) (S : System τ) :
    ((S.withSession i s).withSource t).state i = (State.mk s S.world).withSource t := by
  change State.mk ((S.withSession i s).sessions i) _ = _
  rw [sessions_withSession]
  rfl

/-- Session `i` has nothing of its unit of work any more: no results, nothing in its buffers, and no
lock of a key in any shared cache that locks keys. -/
structure CleanedUp (env : Env τ) (i : Nat) (S S' : System τ) : Prop where
  bare : (S'.sessions i).Bare
  pending : (S'.sessions i).buffers.hasPending = false
  unlocked : ∀ {r : CacheRef} {timeout : Option Nat} {ls : List Layer} {below : Stack ls}
    {S₀ : System τ} {past : List (Nat × WorkCall)}, S₀.Gated r timeout below →
    Traffic env r (.start timeout below) S₀ past S →
    ∃ c : WorkCall, c.Ends ∧ Traffic env r (.start timeout below) S₀ ((i, c) :: past) S' ∧
      ∃ (g : Gate) (x : Stack ls), S'.world.pool.get r = .gated (g, x) ∧ ∀ k ∈ g.held,
        Crew.taker (stackOps ls) (.start timeout below) ((i, c) :: past) k ≠ some i

/-- Session `i` was to commit, and the data source refused. The session has no results any more, and
nothing else is different. Whatever happens to the others, once the data source lets the session
commit, the outcome is what it would have been without the failed attempt, and no part of it but the
state of the data source depends on the data source. -/
structure CommitRefused (env : Env τ) (limit i : Nat) (S S' : System τ) : Prop where
  unchanged : S' = (S.withSession i
    { S.sessions i with loaded := .empty, outputs := .empty }).withSource
      (env.source.commit S.world.source).2
  later : ∀ T : System τ, ∃ (res : Result Unit) (U : System τ), ∀ (env' : Env τ) (required : Bool)
    (t : τ), env'.source.LetsCommit required t →
      ((T.withSession i (S.sessions i)).withSource t).call env' limit i (.commit required) =
        some (res, U.withSource (env'.source.afterCommit required t)) ∧
      ((T.withSession i (S'.sessions i)).withSource t).call env' limit i (.commit required) =
        some (res, U.withSource (env'.source.afterCommit required t))

/-- A session that empties its buffers gives back all its locks. -/
theorem cleanedUp_back {c : Instant → Buffer.Walk → WorkCall} {β : Type} {e : Call β} {b : β}
    {t : State τ} (hcall : S.call env limit i e = some (b, S.back i t))
    (hempties : (S.state i).Empties c t) (hends : ∀ now w, (c now w).Ends) (hbare : t.session.Bare) :
    S.CleanedUp env i (S.back i t) := by
  have hself : (S.back i t).sessions i = t.session := Function.update_self _ _ _
  refine ⟨?_, ?_, ?_⟩
  · rw [hself]
    exact hbare
  · rw [hself]
    exact State.pending_of_empties hempties
  · intro r timeout ls below S₀ past h₀ hS
    obtain ⟨hnamed, hshows⟩ := h₀.traffic hS
    obtain ⟨now, w, hunit⟩ := hempties.unit (hnamed.state i) r
    have hworks : t.unit S₀.world.pool.idOf r =
        WorkCall.runAll Cache.ops [c now w] ((S.state i).unit S₀.world.pool.idOf r) := hunit
    have hafter : (S.back i t).Shows r
        (Crew.after (stackOps ls) (.start timeout below) ((i, c now w) :: past)) :=
      (hnamed.shows_back hshows (hempties.named (hnamed.state i)) hworks).2
    have htraffic : Traffic env r (.start timeout below) S₀ ((i, c now w) :: past) (S.back i t) :=
      hS.call [c now w] hcall hafter
    refine ⟨c now w, hends now w, htraffic, _, _, hafter.cache, fun k hk => ?_⟩
    exact Crew.taker_ne_of_ended (Crew.ended_of_ends (hends now w)) hk

theorem call_rollback (required : Bool) : S.call env limit i (.rollback required) =
    some (((S.state i).rollback env.source required).1,
      S.back i ((S.state i).rollback env.source required).2) := rfl

theorem call_close (force : Bool) : S.call env limit i (.close force) =
    some (((S.state i).close env.source force).1,
      S.back i ((S.state i).close env.source force).2) := rfl

theorem call_commit (required : Bool) : S.call env limit i (.commit required) =
    some (((S.state i).commit env.source required).1,
      S.back i ((S.state i).commit env.source required).2) := rfl

theorem cleanedUp_rollback (hopen : (S.sessions i).closed = false) (required : Bool) :
    ∃ res S', S.call env limit i (.rollback required) = some (res, S') ∧ S.CleanedUp env i S' := by
  have hcall : S.call env limit i (.rollback required) = _ := call_rollback required
  refine ⟨_, _, hcall, cleanedUp_back hcall
    (State.empties_of_rollback hopen env.source required) (fun _ _ => ?_) ?_⟩
  · exact trivial
  · exact State.bare_rollback hopen env.source required

theorem cleanedUp_close (hopen : (S.sessions i).closed = false) (force : Bool) :
    ∃ res S', S.call env limit i (.close force) = some (res, S') ∧ S.CleanedUp env i S' := by
  have hcall : S.call env limit i (.close force) = _ := call_close force
  refine ⟨_, _, hcall, cleanedUp_back hcall (State.empties_of_close hopen env.source force) ?_ ?_⟩
  · cases force with
    | true => exact fun _ _ => trivial
    | false => exact fun _ _ => trivial
  · exact State.bare_close hopen env.source force

theorem cleanedUp_commit (hopen : (S.sessions i).closed = false) {required : Bool}
    (hlets : env.source.LetsCommit required S.world.source) :
    ∃ res S', S.call env limit i (.commit required) = some (res, S') ∧ S.CleanedUp env i S' := by
  have hcall : S.call env limit i (.commit required) = _ := call_commit required
  refine ⟨_, _, hcall, cleanedUp_back hcall (State.empties_of_commit hopen hlets) (fun _ _ => ?_) ?_⟩
  · exact trivial
  · exact State.bare_commit hopen env.source required

/-- A commit that goes through publishes the buffers of the cleared session. -/
theorem call_commit_withSource {s : Session} (hopen : s.closed = false) {required : Bool} {t : τ}
    (hlets : env.source.LetsCommit required t) :
    ((S.withSession i s).withSource t).call env limit i (.commit required) =
      some ((State.mk s.clearLoaded S.world).commitBuffers.1,
        (S.back i (State.mk s.clearLoaded S.world).commitBuffers.2).withSource
          (env.source.afterCommit required t)) := by
  have hcommit := State.commit_withSource (s := ⟨s, S.world⟩) hopen hlets
  rw [call_commit, state_withSession, hcommit]
  refine congrArg some (Prod.ext rfl ?_)
  exact congrArg (System.mk · _) (Function.update_idem _ _ _)

theorem commitRefused (hopen : (S.sessions i).closed = false) {f : Fault}
    (hf : (env.source.commit S.world.source).1 = .error f) :
    ∃ S', S.call env limit i (.commit true) = some (.error f, S') ∧ S.CommitRefused env limit i S' := by
  have hclear := Session.clearLoaded_of_open hopen
  have hcall : S.call env limit i (.commit true) = some (.error f,
      (S.withSession i (S.sessions i).clearLoaded).withSource
        (env.source.commit S.world.source).2) := by
    rw [call_commit, State.commit_refused (s := S.state i) hopen hf]
    rfl
  have hcleared : (S.sessions i).clearLoaded.closed = false := by
    rw [Session.closed_clearLoaded, hopen]
  have htwice : (S.sessions i).clearLoaded.clearLoaded = (S.sessions i).clearLoaded := by
    rw [Session.clearLoaded_of_open hcleared, hclear]
  refine ⟨_, hcall, by rw [hclear], fun T => ?_⟩
  let published := (State.mk (S.sessions i).clearLoaded T.world).commitBuffers
  refine ⟨published.1, T.back i published.2, fun env' required t hlets => ⟨?_, ?_⟩⟩
  · exact call_commit_withSource hopen hlets
  · have hself : ((S.withSession i (S.sessions i).clearLoaded).withSource
        (env.source.commit S.world.source).2).sessions i = (S.sessions i).clearLoaded :=
      sessions_withSession _ _ _
    rw [hself, call_commit_withSource hcleared hlets, htwice]

/-- The end of a unit of work cleans up, whatever fails. In front of any caches, whatever they answer
to which call, a unit of work that ends its buffers one after the other has empty buffers and no lock
afterwards. And any session that is open ends its unit of work by a call that returns and leaves it
so, unless it was to commit and the data source refused. -/
theorem ending_cleans_up :
    (∀ (σ : Type) (B : CacheOps σ) (F : Fleet σ) (i : Nat) (c : Instant → WorkCall),
      (∀ t, (c t).Ends) → ∀ (now : Instant) (es : List (String × CacheRef × Buffer)),
      (es.map (·.2.1)).Nodup → (∀ r, Buffers.inFront es r = (F.crew B r).units i) →
      ∃ t : CacheRef → Instant, ∀ r,
        let F' := F.call i fun r => c (t r)
        Buffers.callEach (Gate.ops B) c now es (fun r => (F.crew B r).cache) r = (F'.crew B r).cache ∧
          ((F'.crew B r).units i).isPending = false ∧
          ∀ k ∈ (F'.crew B r).held, F'.taker B r k ≠ some i) ∧
    ∀ (τ : Type) (env : Env τ) (limit : Nat) (S : System τ) (i : Nat),
      (S.sessions i).closed = false →
      (∀ required, ∃ res S', S.call env limit i (.rollback required) = some (res, S') ∧
        S.CleanedUp env i S') ∧
      (∀ force, ∃ res S', S.call env limit i (.close force) = some (res, S') ∧
        S.CleanedUp env i S') ∧
      (∀ required, env.source.LetsCommit required S.world.source → ∃ res S',
        S.call env limit i (.commit required) = some (res, S') ∧ S.CleanedUp env i S') ∧
      ∀ f, (env.source.commit S.world.source).1 = .error f → ∃ S',
        S.call env limit i (.commit true) = some (.error f, S') ∧
          S.CommitRefused env limit i S' := by
  refine ⟨fun σ B F i c hc now es hes hfront => ?_, fun τ env limit S i hopen => ⟨?_, ?_, ?_, ?_⟩⟩
  · obtain ⟨t, ht⟩ := Fleet.callEach_eq hc hes hfront now
    exact ⟨t, fun r => ⟨ht r, Fleet.call_rest hc t r⟩⟩
  · intro required
    exact cleanedUp_rollback hopen required
  · intro force
    exact cleanedUp_close hopen force
  · intro required hlets
    exact cleanedUp_commit hopen hlets
  · intro f hf
    exact commitRefused hopen hf

/-- A data source that lets nothing commit. -/
def stubbornEnv : Env Unit := { rowEnv with
  source := { rowEnv.source with commit := fun t => (.error (.execution (.reported "commit")), t) } }

/-- A session that missed a key takes its work back, or tries in vain to commit it. -/
theorem ending_cleans_up_gatedSystem :
    ∃ past S, Traffic rowEnv ⟨0⟩ (Crew.start (some 100) gatedStore) gatedSystem past S ∧
      (S.buffer ⟨0⟩ 0).missed = [rowKey] ∧ (S.sessions 0).buffers.hasPending = true ∧
      (∃ res S', S.call rowEnv 1 0 (.rollback true) = some (res, S') ∧ S.CleanedUp rowEnv 0 S') ∧
      ∃ f S', S.call stubbornEnv 1 0 (.commit true) = some (.error f, S') ∧
        S.CommitRefused stubbornEnv 1 0 S' := by
  have hrun : ((gatedSystem.steps rowEnv 1 [.query 0 rowQuery (.int 1) .unbounded] []).map fun p =>
      ((p.2.buffer ⟨0⟩ 0).missed, (p.2.sessions 0).buffers.hasPending, (p.2.sessions 0).closed)) =
        some ([rowKey], true, false) := by decide +kernel
  obtain ⟨⟨ms, S⟩, hsteps, hafter⟩ := Option.map_eq_some_iff.1 hrun
  obtain ⟨hmissed, hrest⟩ := Prod.mk.inj hafter
  obtain ⟨hpending, hopen⟩ := Prod.mk.inj hrest
  obtain ⟨past, hS⟩ := gated_gatedSystem.traffic_steps .start hsteps
  obtain ⟨hrollback, -⟩ := ending_cleans_up.2 Unit rowEnv 1 S 0 hopen
  obtain ⟨-, -, -, hrefused⟩ := ending_cleans_up.2 Unit stubbornEnv 1 S 0 hopen
  exact ⟨past, S, hS, hmissed, hpending, hrollback true, _, hrefused _ rfl⟩

end System

end ResultCache
