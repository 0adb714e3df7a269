import ResultCache.Session.Query

/-!
# What a session does in one go

Apart from queries, a session only drops what it holds, works on its buffers, asks the data source,
and defers or sets properties. A relation between states that holds across each of these
(`Moves`) holds across every call that is no query (`Moves.of_quick`) and across the ending of an
outermost query (`Moves.of_finish`).
-/
namespace ResultCache

variable {τ : Type}

/-- Whether a call asks for a query. -/
def Call.isQuery {β : Type} (c : Call β) : Bool :=
  match c with
  | .query .. => true
  | _ => false

/-- The state that a call leaves, if it is no query. -/
def Call.after (env : Env τ) {β : Type} : Call β → State τ → State τ
  | .defer d, s => (s.defer d).2
  | .update st param, s => (s.update env.source st param).2
  | .commit required, s => (s.commit env.source required).2
  | .rollback required, s => (s.rollback env.source required).2
  | .close force, s => (s.close env.source force).2
  | .clearLoaded, s => s.clearLoaded
  | _, s => s

theorem Call.eq_after {env : Env τ} {nested : Answering τ} {β : Type} {c : Call β} {s t : State τ}
    {b : β} (hc : c.isQuery = false) (h : c.run env nested s = some (b, t)) : t = c.after env s := by
  cases c with
  | query q key handled => cases hc
  | _ => exact (congrArg Prod.snd (Option.some.inj h)).symm

namespace State

/-- Flushing touches nothing but a buffer. -/
theorem flush_buffers (st : Statement) (s : State τ) :
    ∃ bs, s.flush st = { s with session := { s.session with buffers := bs } } := by
  rw [flush]
  repeat' split
  all_goals exact ⟨_, rfl⟩

theorem keepOutputs_outputs (q : Query) (k : Key) (s : State τ) :
    ∃ outputs, s.keepOutputs q k = { s with session := { s.session with outputs := outputs } } := by
  rw [keepOutputs]
  repeat' split
  all_goals exact ⟨_, rfl⟩

theorem restoreOutputs_heap (q : Query) (k : Key) (s : State τ) :
    ∃ h, s.restoreOutputs q k = s.withHeap h := by
  rw [restoreOutputs]
  repeat' split
  all_goals exact ⟨_, rfl⟩

theorem defer_deferred (d : Session.Deferred) (s : State τ) :
    ∃ h ds, (s.defer d).2 =
      ⟨{ s.session with deferred := ds }, { s.world with heap := h }⟩ := by
  rw [defer]
  repeat' split
  all_goals exact ⟨_, _, rfl⟩

end State

/-- A relation that holds across everything that a session does in one go. -/
structure Moves (D : DataSource τ) (R : State τ → State τ → Prop) : Prop where
  refl : ∀ s, R s s
  trans : ∀ {s t u}, R s t → R t u → R s u
  clear : ∀ s, R s s.clearLoaded
  flush : ∀ st s, R s (s.flush st)
  defer : ∀ d s, R s (s.defer d).2
  /-- the data source changes something -/
  change : ∀ st param s, R s { s with world := { s.world with
    heap := (D.update st st.binding param s.heap s.world.source).2.1
    source := (D.update st st.binding param s.heap s.world.source).2.2 } }
  source : ∀ (f : τ → Result Unit × τ) s, R s (s.source f).2
  commit : ∀ s, R s s.commitBuffers.2
  rollback : ∀ s, R s s.rollbackBuffers
  /-- the session is closed -/
  shut : ∀ s, R s ⟨{ s.session with deferred := [], closed := true },
    { s.world with source := D.close s.world.source }⟩
  /-- what waits is dropped -/
  drop : ∀ s, R s { s with session := { s.session with deferred := [] } }
  /-- what waits is set -/
  drain : ∀ s, R s s.drain.2

namespace Moves

variable {D : DataSource τ} {R : State τ → State τ → Prop} (hR : Moves D R)

include hR

theorem of_update (st : Statement) (param : Value) (s : State τ) : R s (s.update D st param).2 := by
  rw [State.update]
  split
  · exact hR.refl s
  · have hcleared := hR.trans (hR.flush st s) (hR.clear (s.flush st))
    exact hR.trans hcleared (hR.change st param _)

theorem of_commit (required : Bool) (s : State τ) : R s (s.commit D required).2 := by
  have hcleared := hR.clear s
  rw [State.commit]
  split
  · exact hR.refl s
  · split
    · have hsource := hR.trans hcleared (hR.source D.commit s.clearLoaded)
      dsimp only
      generalize s.clearLoaded.source D.commit = x at hsource
      obtain ⟨_ | ⟨⟩, t⟩ := x
      · exact hsource
      · exact hR.trans hsource (hR.commit t)
    · exact hR.trans hcleared (hR.commit _)

theorem of_rollbackLocal (required : Bool) (s : State τ) : R s (s.rollbackLocal D required).2 := by
  have hcleared := hR.clear s
  rw [State.rollbackLocal]
  split
  · exact hR.trans hcleared (hR.source D.rollback _)
  · exact hcleared

theorem of_rollback (required : Bool) (s : State τ) : R s (s.rollback D required).2 := by
  rw [State.rollback]
  split
  · exact hR.refl s
  · exact hR.trans (hR.of_rollbackLocal required s) (hR.rollback _)

theorem of_close (force : Bool) (s : State τ) : R s (s.close D force).2 := by
  rw [State.close]
  split
  · exact hR.refl s
  · cases force with
    | true =>
      have hdropped := hR.trans (hR.rollback s) (hR.of_rollbackLocal true _)
      exact hR.trans hdropped (hR.shut _)
    | false =>
      have hpublished := hR.trans (hR.commit s) (hR.of_rollbackLocal false _)
      exact hR.trans hpublished (hR.shut _)

/-- The ending of an outermost query. -/
theorem of_finish (reply : Reply) (s : State τ) : R s (s.finish reply).2 := by
  rw [State.finish]
  split
  · exact hR.drop s
  · dsimp only
    split
    · exact hR.trans (hR.drain s) (hR.clear _)
    · exact hR.drain s

omit hR

/-- A call that is no query. -/
theorem of_quick {env : Env τ} (hR : Moves env.source R) {nested : Answering τ} {β : Type}
    {c : Call β} {s t : State τ} {b : β} (hc : c.isQuery = false)
    (h : c.run env nested s = some (b, t)) : R s t := by
  rw [Call.eq_after hc h]
  cases c with
  | defer d => exact hR.defer d s
  | update st param => exact hR.of_update st param s
  | commit required => exact hR.of_commit required s
  | rollback required => exact hR.of_rollback required s
  | close force => exact hR.of_close force s
  | clearLoaded => exact hR.clear s
  | _ => exact hR.refl s

end Moves

end ResultCache
