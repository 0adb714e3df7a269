import ResultCache.Proofs.Session.Answer

/-!
# Calls that give no rows

Updates, commits, rollbacks and closes leave right what was right (`State.Keeps`). Only what a
commit or a close publishes (`State.published`) changes which keys are lost.
-/
namespace ResultCache.State

variable {τ : Type} {R : Key → List Frozen → Prop} {K : ObjId → Prop} {answer : Answer}
  {D : DataSource τ} {ids : CacheRef → String} {L : CacheRef → Key → Prop} {h : Heap}
  {s s' : State τ}

/-- The heap is as before, and session and caches are right. -/
structure Keeps (ids : CacheRef → String) (R : Key → List Frozen → Prop)
    (L : CacheRef → Key → Prop) (K : ObjId → Prop) (h : Heap) (s : State τ) : Prop where
  heap : s.heap = h
  session : s.session.Right ids R K h
  pool : s.world.pool.Right ids R L K h

theorem reordered_walked (s : State τ) : s.session.buffers.Reordered s.walked :=
  s.session.walk.reorders s.world.now s.session.buffers

namespace Keeps

/-- Sessions and sources of other states do not matter. -/
theorem of_eq (hs : s.Keeps ids R L K h) (hsession : s'.session.Right ids R K h)
    (hheap : s'.heap = s.heap) (hpool : s'.world.pool = s.world.pool) :
    s'.Keeps ids R L K h := by
  refine ⟨hheap.trans hs.heap, hsession, ?_⟩
  rw [hpool]
  exact hs.pool

theorem clearLoaded (hs : s.Keeps ids R L K h) : s.clearLoaded.Keeps ids R L K h := by
  refine hs.of_eq ⟨hs.session.kept.clearLoaded, ?_, ?_⟩ rfl rfl
  · exact s.session.depth_clearLoaded.trans hs.session.depth
  · have hbuffers : s.clearLoaded.session.buffers = s.session.buffers :=
      s.session.buffers_clearLoaded
    rw [hbuffers]
    exact hs.session.buffers

theorem flush (hs : s.Keeps ids R L K h) (st : Statement) : (s.flush st).Keeps ids R L K h := by
  have hsession : s.session.Right ids R K s.heap := hs.heap ▸ hs.session
  have hpool : s.world.pool.Right ids R L K s.heap := hs.heap ▸ hs.pool
  obtain ⟨bs, hflush, hbs, -⟩ := flush_eq hsession hpool st
  rw [hflush]
  rw [hs.heap] at hbs
  have hkept := hs.session.kept
  exact hs.of_eq ⟨⟨hkept.loaded, hkept.outputs, hkept.deferred⟩, hs.session.depth, hbs⟩ rfl rfl

theorem source (hs : s.Keeps ids R L K h) (f : τ → Result Unit × τ) :
    (s.source f).2.Keeps ids R L K h := hs.of_eq hs.session rfl rfl

theorem commitBuffers (hs : s.Keeps ids R L K h) (hK : h.Region K) :
    s.commitBuffers.2.Keeps ids R (s.session.buffers.lostAfter L) K h := by
  have hheap : s.world.heap = h := hs.heap
  have hwalked := hs.session.buffers.of_reordered s.reordered_walked
  obtain ⟨hbuffers, hpool⟩ := hwalked.commit hs.pool hK s.world.now
  rw [hs.session.buffers.placed.lostAfter_of_reordered s.reordered_walked] at hpool
  have hkept := hs.session.kept
  rw [← hheap] at hbuffers hpool hkept ⊢
  exact ⟨rfl, ⟨⟨hkept.loaded, hkept.outputs, hkept.deferred⟩, hs.session.depth, hbuffers⟩, hpool⟩

theorem rollbackBuffers (hs : s.Keeps ids R L K h) (hK : h.Region K) :
    s.rollbackBuffers.Keeps ids R L K h := by
  have hheap : s.world.heap = h := hs.heap
  have hwalked := hs.session.buffers.of_reordered s.reordered_walked
  obtain ⟨hbuffers, hpool⟩ := hwalked.rollback hs.pool hK s.world.now
  have hkept := hs.session.kept
  rw [← hheap] at hbuffers hpool hkept ⊢
  exact ⟨rfl, ⟨⟨hkept.loaded, hkept.outputs, hkept.deferred⟩, hs.session.depth, hbuffers⟩, hpool⟩

theorem rollbackLocal (hs : s.Keeps ids R L K h) (D : DataSource τ) (required : Bool) :
    (s.rollbackLocal D required).2.Keeps ids R L K h := by
  rw [State.rollbackLocal]
  split
  · exact hs.clearLoaded.source D.rollback
  · exact hs.clearLoaded

theorem update (hs : s.Keeps ids R L K h) (hD : D.Steady answer) (st : Statement)
    (param : Value) : (s.update D st param).2.Keeps ids R L K h := by
  rw [State.update]
  split
  · exact hs
  · have hcleared := (hs.flush st).clearLoaded
    exact hcleared.of_eq hcleared.session (hD.update st param _ _) rfl

theorem rollback (hs : s.Keeps ids R L K h) (D : DataSource τ) (required : Bool)
    (hK : h.Region K) : (s.rollback D required).2.Keeps ids R L K h := by
  rw [State.rollback]
  split
  · exact hs
  · exact (hs.rollbackLocal D required).rollbackBuffers hK

end Keeps

/-- The buffers that a commit publishes: none if the session is closed or the data source fails to
commit. -/
def published (D : DataSource τ) (required : Bool) (s : State τ) : Buffers :=
  if s.session.closed then .empty
  else if required then
    match (D.commit s.world.source).1 with
    | .ok () => s.session.buffers
    | .error _ => .empty
  else s.session.buffers

namespace Keeps

theorem unpublished (hs : s.Keeps ids R L K h) :
    s.Keeps ids R (Buffers.empty.lostAfter L) K h := by
  rw [Buffers.lostAfter_empty]
  exact hs

theorem commit (hs : s.Keeps ids R L K h) (D : DataSource τ) (required : Bool)
    (hK : h.Region K) :
    (s.commit D required).2.Keeps ids R ((s.published D required).lostAfter L) K h := by
  have hcleared := hs.clearLoaded
  have hbuffers : s.clearLoaded.session.buffers = s.session.buffers :=
    s.session.buffers_clearLoaded
  rw [State.commit, published]
  by_cases hclosed : s.session.closed = true
  · rw [if_pos hclosed, if_pos hclosed]
    exact hs.unpublished
  · rw [if_neg hclosed, if_neg hclosed]
    cases required with
    | false =>
      have hcommit := hcleared.commitBuffers hK
      rw [hbuffers] at hcommit
      exact hcommit
    | true =>
      have hsource := hcleared.source D.commit
      rcases hcommit : s.clearLoaded.source D.commit with ⟨r, u⟩
      have hr : (D.commit s.world.source).1 = r := congrArg Prod.fst hcommit
      have hu : u.session = s.clearLoaded.session := congrArg (·.2.session) hcommit.symm
      rw [hcommit] at hsource
      rw [if_pos rfl, if_pos rfl, hr, hcommit]
      rcases r with f | ⟨⟩
      · exact hsource.unpublished
      · have hpublish := hsource.commitBuffers hK
        rw [hu, hbuffers] at hpublish
        exact hpublish

/-- A close without force publishes like a commit that the data source is not asked for. -/
theorem close (hs : s.Keeps ids R L K h) (D : DataSource τ) (force : Bool) (hK : h.Region K) :
    (s.close D force).2.Keeps ids R
      ((if force then Buffers.empty else s.published D false).lostAfter L) K h := by
  have hend : ∀ {M} (u : State τ), u.Keeps ids R M K h →
      (⟨{ (u.rollbackLocal D force).2.session with deferred := [], closed := true },
        { (u.rollbackLocal D force).2.world with
          source := D.close (u.rollbackLocal D force).2.world.source }⟩ : State τ).Keeps
        ids R M K h := by
    intro M u hu
    have hlocal := hu.rollbackLocal D force
    exact hlocal.of_eq ⟨⟨hlocal.session.kept.loaded, hlocal.session.kept.outputs, rfl⟩,
      hlocal.session.depth, hlocal.session.buffers⟩ rfl rfl
  rw [State.close, published]
  by_cases hclosed : s.session.closed = true
  · rw [if_pos hclosed, if_pos hclosed, ite_self]
    exact hs.unpublished
  · rw [if_neg hclosed, if_neg hclosed]
    cases force with
    | true => exact (hend _ (hs.rollbackBuffers hK)).unpublished
    | false => exact hend _ (hs.commitBuffers hK)

end Keeps

end ResultCache.State
