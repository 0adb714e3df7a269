import ResultCache.Proofs.Session.Tracks

/-!
# What a session can do to the shared caches

Whatever a session does, with any materializer, the shared caches see nothing of it but what it does
to its buffers. So a relation between states that composes, that does not look beyond the buffers and
the caches, and that holds for each thing done to a buffer (`Reach`), holds for every call of the
session (`Reach.perform`).
-/
namespace ResultCache

/-- A relation that holds for whatever is done to the buffers of a session, and looks at nothing
else. -/
structure Reach {τ : Type} (R : State τ → State τ → Prop) : Prop where
  trans : ∀ {s t u}, R s t → R t u → R s u
  quiet : ∀ {s t}, t.session.buffers = s.session.buffers → t.world.pool = s.world.pool → R s t
  clear : ∀ r s, R s { s with
    session := { s.session with buffers := s.session.buffers.clear r s.world.pool } }
  put : ∀ r k e s, R s (s.putShared r k e)
  get : ∀ r k s, R s (s.readShared r k).2
  release : ∀ r k s, R s (s.releaseShared r k)
  commit : ∀ s, R s s.commitBuffers.2
  rollback : ∀ s, R s s.rollbackBuffers

namespace Reach

variable {τ : Type} {R : State τ → State τ → Prop} (hR : Reach R)

include hR

theorem refl (s : State τ) : R s s := hR.quiet rfl rfl

theorem clearLoaded (s : State τ) : R s s.clearLoaded := by
  refine hR.quiet ?_ rfl
  rw [State.clearLoaded, Session.clearLoaded]
  dsimp only
  split <;> rfl

theorem flush (st : Statement) (s : State τ) : R s (s.flush st) := by
  rw [State.flush]
  split
  · split
    · exact hR.clear _ s
    · exact hR.refl s
  · exact hR.refl s

theorem defer (d : Session.Deferred) (s : State τ) : R s (s.defer d).2 := by
  obtain ⟨h, ds, hdefer⟩ := s.defer_deferred d
  rw [hdefer]
  exact hR.quiet rfl rfl

/-- So the relation holds across everything that a session does in one go. -/
theorem moves (D : DataSource τ) : Moves D R where
  refl := hR.refl
  trans := hR.trans
  clear := hR.clearLoaded
  flush := hR.flush
  defer := hR.defer
  change _ _ _ := hR.quiet rfl rfl
  source _ _ := hR.quiet rfl rfl
  commit := hR.commit
  rollback := hR.rollback
  shut _ := hR.quiet rfl rfl
  drop _ := hR.quiet rfl rfl
  drain _ := hR.quiet rfl rfl

theorem keepOutputs (q : Query) (k : Key) (s : State τ) : R s (s.keepOutputs q k) := by
  obtain ⟨outputs, hkeep⟩ := s.keepOutputs_outputs q k
  rw [hkeep]
  exact hR.quiet rfl rfl

theorem restoreOutputs (q : Query) (k : Key) (s : State τ) : R s (s.restoreOutputs q k) := by
  obtain ⟨h, hrestore⟩ := s.restoreOutputs_heap q k
  rw [hrestore]
  exact hR.quiet rfl rfl

/-- And it holds across each move of a session, whatever the assemblies ask for. -/
theorem tracks (env : Env τ) : Tracks env (fun _ _ => True) R where
  refl := hR.refl
  trans := hR.trans
  confined _ _ := Assembly.confined_all _
  quick _ hc h := (hR.moves env.source).of_quick hc h
  alloc _ _ := hR.quiet rfl rfl
  write _ _ _ _ := hR.quiet rfl rfl
  note _ _ := hR.quiet rfl rfl
  source _ _ _ _ _ _ := hR.quiet rfl rfl
  flush := hR.flush
  read := hR.get
  put := hR.put
  release := hR.release
  anew s _ := hR.clearLoaded s
  finish reply s _ := (hR.moves env.source).of_finish reply s
  keepRows _ _ _ := hR.quiet rfl rfl
  keepOutputs := hR.keepOutputs
  restoreOutputs := hR.restoreOutputs
  loading {k s _} h :=
    have hmark : R s (s.mark k) := hR.quiet rfl rfl
    hR.trans (hR.trans hmark h) (hR.quiet rfl rfl)
  within {s _} h :=
    have henter : R s s.enter := hR.quiet rfl rfl
    hR.trans (hR.trans henter h) (hR.quiet rfl rfl)

/-- A call from outside. -/
theorem perform {env : Env τ} (limit : Nat) {β : Type} (c : Call β) {s t : State τ} {b : β}
    (h : env.perform limit c s = some (b, t)) : R s t :=
  (hR.tracks env).perform trivial h

end Reach

end ResultCache
