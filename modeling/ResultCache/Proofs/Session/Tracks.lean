import ResultCache.Proofs.Session.Moves

/-!
# What holds across everything that a session does

A session that answers a query runs an assembly, which may ask the session for anything, other
queries included, and each of those runs an assembly again. `Tracks` lists the single moves that all
of this is made of. A relation between states that composes and holds across each move holds across
every query and every call (`Tracks.answer`, `Tracks.perform`), however deep queries nest and
wherever something fails.

Two moves come in pairs, which is what such a relation is mostly about: a query puts a mark for its
key and takes it away, and it counts as running and stops to. What the assemblies may ask for can be
limited (`Assembly.Confined`).
-/
namespace ResultCache

variable {τ : Type}

namespace State

/-- An outermost query of a statement that flushes starts with an empty session. -/
def opened (q : Query) (s : State τ) : State τ :=
  if s.session.depth = 0 && q.statement.flushes then s.clearLoaded else s

/-- A query with all queries inside it, up to its ending. -/
def inside (env : Env τ) (nested : Answering τ) (q : Query) (k : Key) (handled : Bool) :
    Run τ Reply := fun s =>
  ((s.opened q).enter.lookup env nested q k handled).map fun p => (p.1, p.2.leave)

/-- What is left to do after a query: nothing, unless it was the outermost one. -/
def ending (reply : Reply) (s : State τ) : Reply × State τ :=
  if 0 < s.session.depth then (reply, s) else s.finish reply

theorem answerLocal_eq (env : Env τ) (nested : Answering τ) (q : Query) (k : Key) (handled : Bool)
    (s : State τ) : s.answerLocal env nested q k handled =
      (s.inside env nested q k handled).map fun p => p.2.ending p.1 := by
  rw [answerLocal, inside, Option.map_map]
  rfl

end State

/-- The assembly asks a session only for what `P` allows. -/
def Assembly.Confined (P : ∀ β : Type, Call β → Prop) {α : Type} : Assembly τ α → Prop
  | .done _ => True
  | .heap next => ∀ h, (next h).Confined P
  | .alloc _ next => ∀ o, (next o).Confined P
  | .write _ _ _ next => next.Confined P
  | .note _ next => next.Confined P
  | @Assembly.call _ _ β c next => P β c ∧ ∀ b, (next b).Confined P

theorem Assembly.confined_all {α : Type} (a : Assembly τ α) : a.Confined fun _ _ => True := by
  induction a with
  | done r => trivial
  | heap next ih => exact ih
  | alloc r next ih => exact ih
  | write o name v next ih => exact ih
  | note f next ih => exact ih
  | call c next ih => exact ⟨trivial, ih⟩

/-- A relation that holds across each move of a session whose assemblies ask only for what `P`
allows. -/
structure Tracks (env : Env τ) (P : ∀ β : Type, Call β → Prop) (R : State τ → State τ → Prop) :
    Prop where
  refl : ∀ s, R s s
  trans : ∀ {s t u}, R s t → R t u → R s u
  confined : ∀ st rs, (env.materializer st rs).Confined P
  /-- a call that is no query -/
  quick : ∀ {β : Type} {c : Call β} {nested : Answering τ} {s t : State τ} {b : β}, P β c →
    c.isQuery = false → c.run env nested s = some (b, t) → R s t
  alloc : ∀ r (s : State τ), R s (s.withHeap (s.heap.alloc r).2)
  write : ∀ o name v (s : State τ), R s (s.withHeap (s.heap.write o name v))
  note : ∀ (f : τ → τ) (s : State τ),
    R s { s with world := { s.world with source := f s.world.source } }
  /-- the data source is asked for rows -/
  source : ∀ (q : Query) (s : State τ) (rows : Result (List Record)) (h : Heap) (x : τ),
    env.source.query q.statement q.binding q.param q.window s.heap s.world.source = (rows, h, x) →
    R s { s with world := { s.world with heap := h, source := x } }
  flush : ∀ st s, R s (s.flush st)
  read : ∀ r k s, R s (s.readShared r k).2
  put : ∀ r k e s, R s (s.putShared r k e)
  release : ∀ r k s, R s (s.releaseShared r k)
  /-- an outermost query begins anew -/
  anew : ∀ s, s.session.depth = 0 → R s s.clearLoaded
  /-- an outermost query ends -/
  finish : ∀ reply s, s.session.depth = 0 → R s (s.finish reply).2
  keepRows : ∀ k vs s, R s (s.keepRows k vs)
  keepOutputs : ∀ q k s, R s (s.keepOutputs q k)
  restoreOutputs : ∀ q k s, R s (s.restoreOutputs q k)
  /-- what happens under a mark -/
  loading : ∀ {k s t}, R (s.mark k) t → R s (t.unmark k)
  /-- what happens inside a query -/
  within : ∀ {s t}, R s.enter t → R s t.leave

namespace Tracks

variable {env : Env τ} {P : ∀ β : Type, Call β → Prop} {R : State τ → State τ → Prop}
  (hR : Tracks env P R) {nested : Answering τ}
  (hnested : ∀ q k handled s reply t, nested q k handled s = some (reply, t) → R s t)

include hR hnested

theorem call {β : Type} {c : Call β} (hc : P β c) {s t : State τ} {b : β}
    (h : c.run env nested s = some (b, t)) : R s t := by
  cases hquery : c.isQuery with
  | false => exact hR.quick hc hquery h
  | true =>
    cases c with
    | query q key handled =>
      cases key with
      | some k => exact hnested q k handled s b t h
      | none =>
        rw [Call.run] at h
        split at h
        · exact hnested q _ handled s b t h
        · cases h
          exact hR.refl s
    | _ => cases hquery

theorem assembly {α : Type} {a : Assembly τ α} (ha : a.Confined P) {s t : State τ} {r : Result α}
    (h : a.run env nested s = some (r, t)) : R s t := by
  induction a generalizing s with
  | done r =>
    cases h
    exact hR.refl _
  | heap next ih => exact ih _ (ha _) h
  | alloc r next ih => exact hR.trans (hR.alloc r s) (ih _ (ha _) h)
  | write o name v next ih => exact hR.trans (hR.write o name v s) (ih ha h)
  | note f next ih => exact hR.trans (hR.note f s) (ih ha h)
  | call c next ih =>
    rw [Assembly.run] at h
    obtain ⟨⟨b, u⟩, hcall, hrest⟩ := Option.bind_eq_some_iff.1 h
    exact hR.trans (call hR hnested ha.1 hcall) (ih b (ha.2 b) hrest)

theorem load {q : Query} {handled : Bool} {s t : State τ} {reply : Reply}
    (h : s.load env nested q handled = some (reply, t)) : R s t := by
  have hsource := hR.source q s
  rw [State.load] at h
  generalize env.source.query q.statement q.binding q.param q.window s.heap s.world.source = x
    at h hsource
  obtain ⟨rows, h', w⟩ := x
  have hasked := hsource rows h' w rfl
  cases rows with
  | error f =>
    cases h
    exact hasked
  | ok rows =>
    obtain ⟨⟨r, u⟩, hrun, hreply⟩ := Option.map_eq_some_iff.1 h
    have hu := hR.trans hasked (assembly hR hnested (hR.confined _ _) hrun)
    cases r <;> cases hreply <;> exact hu

theorem fetch {q : Query} {k : Key} {handled : Bool} {s t : State τ} {reply : Reply}
    (h : s.fetch env nested q k handled = some (reply, t)) : R s t := by
  rw [State.fetch] at h
  obtain ⟨⟨r, u⟩, hload, hreply⟩ := Option.map_eq_some_iff.1 h
  have hunmark : R s (u.unmark k) := hR.loading (load hR hnested hload)
  dsimp only at hreply
  split at hreply
  · cases hreply
    exact hunmark
  · cases hreply
    cases handled with
    | true => exact hR.trans hunmark (hR.keepOutputs _ _ _)
    | false => exact hR.trans (hR.trans hunmark (hR.keepRows _ _ _)) (hR.keepOutputs _ _ _)

theorem lookup {q : Query} {k : Key} {handled : Bool} {s t : State τ} {reply : Reply}
    (h : s.lookup env nested q k handled = some (reply, t)) : R s t := by
  rw [State.lookup] at h
  split at h
  · exact fetch hR hnested h
  · split at h
    · cases h
      exact hR.refl s
    · split at h
      · cases h
        exact hR.restoreOutputs q k s
      · exact fetch hR hnested h
    · exact fetch hR hnested h

theorem inside {q : Query} {k : Key} {handled : Bool} {s t : State τ} {reply : Reply}
    (h : s.inside env nested q k handled = some (reply, t)) : R s t := by
  have hopened : R s (s.opened q) := by
    rw [State.opened]
    split
    · rename_i hfirst
      rw [Bool.and_eq_true, decide_eq_true_eq] at hfirst
      exact hR.anew s hfirst.1
    · exact hR.refl s
  obtain ⟨⟨r, u⟩, hlookup, hreply⟩ := Option.map_eq_some_iff.1 h
  cases hreply
  exact hR.trans hopened (hR.within (lookup hR hnested hlookup))

theorem answerLocal {q : Query} {k : Key} {handled : Bool} {s t : State τ} {reply : Reply}
    (h : s.answerLocal env nested q k handled = some (reply, t)) : R s t := by
  rw [State.answerLocal_eq] at h
  obtain ⟨⟨r, u⟩, hinside, hreply⟩ := Option.map_eq_some_iff.1 h
  have hu : R s u := inside hR hnested hinside
  rw [State.ending] at hreply
  split at hreply
  · cases hreply
    exact hu
  · rename_i hdepth
    have hfinish := hR.finish r u (Nat.eq_zero_of_not_pos hdepth)
    rw [hreply] at hfinish
    exact hR.trans hu hfinish

theorem answerShared {r : CacheRef} {q : Query} {k : Key} {s t : State τ} {reply : Reply}
    (h : s.answerShared env nested r q k = some (reply, t)) : R s t := by
  rw [State.answerShared] at h
  split at h
  · cases h
    exact hR.refl s
  · have hread := hR.read r k s
    generalize s.readShared r k = x at h hread
    obtain ⟨f | e, u⟩ := x
    · cases h
      exact hread
    · dsimp only at h
      split at h
      · cases h
        exact hread
      · obtain ⟨⟨a, v⟩, hlocal, hreply⟩ := Option.map_eq_some_iff.1 h
        have hv := hR.trans hread (answerLocal hR hnested hlocal)
        dsimp only at hreply
        split at hreply
        · cases hreply
          exact hR.trans hv (hR.put r k _ v)
        · cases hreply
          exact hR.trans hv (hR.release r k v)

theorem answerOnce {q : Query} {k : Key} {handled : Bool} {s t : State τ} {reply : Reply}
    (h : s.answerOnce env nested q k handled = some (reply, t)) : R s t := by
  rw [State.answerOnce] at h
  split at h
  · cases h
    exact hR.refl s
  · split at h
    · exact answerLocal hR hnested h
    · have hflush := hR.flush q.statement s
      dsimp only at h
      split at h
      · exact hR.trans hflush (answerLocal hR hnested h)
      · exact hR.trans hflush (answerShared hR hnested h)

omit hnested

theorem answer {limit : Nat} {q : Query} {k : Key} {handled : Bool} {s t : State τ} {reply : Reply}
    (h : env.answer limit q k handled s = some (reply, t)) : R s t := by
  -- on how deep queries may nest: the hypothesis is about the queries inside this one
  induction limit generalizing q k handled s reply t with
  | zero => cases h
  | succ limit ih => exact answerOnce hR (fun _ _ _ _ _ _ h => ih h) h

/-- A call from outside. -/
theorem perform {limit : Nat} {β : Type} {c : Call β} (hc : P β c) {s t : State τ} {b : β}
    (h : env.perform limit c s = some (b, t)) : R s t :=
  call hR (fun _ _ _ _ _ _ h => hR.answer h) hc h

end Tracks

end ResultCache
