import ResultCache.Proofs.Session.Tracks
import ResultCache.Proofs.Value.Region

/-!
# Objects keep their properties

Nothing that a session does takes a property away from an object: objects are made and properties
are set, by the session, its assemblies and the shared caches it reads, which only make new objects
(`grows_stackOps`). If the data source takes nothing away either (`DataSource.Keeps`), what an object
has it has for good (`keeps_tracks`).
-/
namespace ResultCache

namespace Heap

/-- The object has the property. -/
def Has (h : Heap) (o : ObjId) (name : String) : Prop := (h.read o name).isSome

/-- No object is gone later, and none has lost a property. -/
structure Keeps (h h' : Heap) : Prop where
  exist : ∀ o, (h.record? o).isSome → (h'.record? o).isSome
  has : ∀ o name, h.Has o name → h'.Has o name

variable {h i j : Heap}

theorem Keeps.refl (h : Heap) : h.Keeps h := ⟨fun _ => id, fun _ _ => id⟩

theorem Keeps.trans (hi : h.Keeps i) (ij : i.Keeps j) : h.Keeps j :=
  ⟨fun o ho => ij.exist o (hi.exist o ho), fun o name ho => ij.has o name (hi.has o name ho)⟩

theorem Grows.keeps (hi : h.Grows i) : h.Keeps i := by
  have hsame : ∀ o, (h.record? o).isSome → i.record? o = h.record? o := fun o ho =>
    hi.record? o (record?_isSome_iff.1 ho)
  refine ⟨fun o ho => by rwa [hsame o ho], fun o name hname => ?_⟩
  have ho : (h.record? o).isSome := by
    rw [Has, read] at hname
    exact Option.isSome_of_isSome_bind hname
  rw [Has, read, hsame o ho]
  exact hname

/-- A property that is set is there, if the object exists. -/
theorem has_write (h : Heap) {o : ObjId} (ho : (h.record? o).isSome) (name : String) (v : Value) :
    (h.write o name v).Has o name := by
  obtain ⟨r, hr⟩ := Option.isSome_iff_exists.1 ho
  simp [Has, read, hr]

theorem keeps_write (h : Heap) (o : ObjId) (name : String) (v : Value) :
    h.Keeps (h.write o name v) := by
  constructor
  · intro p hp
    rw [record?_isSome_iff, size_write]
    exact record?_isSome_iff.1 hp
  · intro p other hother
    by_cases hp : p = o
    · subst hp
      by_cases hname : other = name
      · subst hname
        exact has_write h (Option.isSome_of_isSome_bind hother) other v
      · rw [Has, read] at hother ⊢
        rw [record?_write_self, Option.bind_map]
        simp only [Function.comp_def, NameMap.get?_insert_of_ne _ _ hname]
        exact hother
    · rw [Has, read, record?_write_of_ne h name v hp]
      exact hother

/-- Setting several properties of an object. -/
theorem keeps_foldl_write (h : Heap) (o : ObjId) (r : Record) (ps : List Parameter) :
    h.Keeps (ps.foldl (fun h p => h.write o p.name (.ofOption (r.get? p.name))) h) := by
  induction ps generalizing h with
  | nil => exact .refl h
  | cons p ps ih => exact (h.keeps_write o p.name _).trans (ih _)

end Heap

namespace Outline

mutual

/-- Building a value only makes new objects. -/
theorem grows_build : ∀ (l : Outline) (h : Heap), h.Grows (build l h).2
  | .null, h | .bool _, h | .int _, h | .float _, h | .text _, h | .bytes _, h | .ref _, h =>
    .refl h
  | .list ls, h => grows_buildAll ls h
  | .object props, h => (grows_buildProps props h).trans (Heap.grows_alloc _ _)

theorem grows_buildAll : ∀ (ls : List Outline) (h : Heap), h.Grows (buildAll ls h).2
  | [], h => .refl h
  | l :: ls, h => (grows_build l h).trans (grows_buildAll ls _)

theorem grows_buildProps :
    ∀ (props : List (String × Outline)) (h : Heap), h.Grows (buildProps props h).2
  | [], h => .refl h
  | (_, l) :: props, h => (grows_build l h).trans (grows_buildProps props _)

end

end Outline

/-- Reading the cache only makes new objects. -/
def CacheOps.Grows {σ : Type} (B : CacheOps σ) : Prop :=
  ∀ (now : Instant) (h : Heap) (k : Key) (s : σ), h.Grows (B.get now h k s).2.1

section Layers

variable {σ : Type} {B : CacheOps σ}

theorem Expiry.grows (hB : B.Grows) : (Expiry.ops B).Grows := by
  intro now h k s
  change h.Grows (Expiry.get B now h k s).2.1
  rw [Expiry.get]
  split
  · exact .refl h
  · exact hB now h k s.2

theorem Gate.grows (hB : B.Grows) : (Gate.ops B).Grows := by
  intro now h k s
  have hunder := hB now h k s.2
  change h.Grows (Gate.get B now h k s).2.1
  rw [Gate.get]
  split
  · exact .refl h
  · generalize B.get now h k s.2 = r at hunder
    obtain ⟨_ | _ | _, h', u⟩ := r <;> exact hunder

theorem Copying.grows_restored (cache : String) (h : Heap) (e : Option Entry) :
    h.Grows (Copying.restored cache h e).2 := by
  rw [Copying.restored.eq_def]
  split
  · split
    · exact Outline.grows_buildAll _ h
    · exact .refl h
  · exact .refl h

theorem Copying.grows (hB : B.Grows) : (Copying.ops B).Grows := by
  intro now h k s
  have hunder := hB now h k s.2
  change h.Grows (Copying.restoreBelow (B.id s.2) (B.get now h k s.2)).2.1
  generalize B.get now h k s.2 = r at hunder
  obtain ⟨_ | e, h', u⟩ := r
  · exact hunder
  · exact hunder.trans (Copying.grows_restored _ h' e)

theorem Counting.grows (hB : B.Grows) : (Counting.ops B).Grows := by
  intro now h k s
  have hunder := hB now h k s.2
  change h.Grows (Counting.get B now h k s).2.1
  rw [Counting.get]
  generalize B.get now h k s.2 = r at hunder
  obtain ⟨_ | _, h', u⟩ := r <;> exact hunder

end Layers

theorem grows_stackOps (ls : List Layer) : (stackOps ls).Grows := by
  induction ls with
  | nil => exact fun _ h _ _ => .refl h
  | cons l ls ih =>
    cases l with
    | recency => exact fun now h k s => ih now h k s.2
    | arrival => exact fun now h k s => ih now h k s.2
    | expiry => exact Expiry.grows ih
    | gate => exact Gate.grows ih
    | copying => exact Copying.grows ih
    | exclusive => exact fun now h k s => ih now h k s.2
    | counting => exact Counting.grows ih

theorem Buffer.grows_get {σ : Type} {B : CacheOps σ} (hB : B.Grows) (now : Instant) (h : Heap)
    (k : Key) (b : Buffer) (s : σ) : h.Grows (Buffer.get B now h k b s).2.1 := by
  have hread := hB now h k s
  rw [Buffer.get]
  split
  · exact .refl h
  · split
    · exact .refl h
    · generalize B.get now h k s = r at hread
      obtain ⟨_ | _ | _, h', u⟩ := r <;> exact hread

theorem Buffers.grows_get (now : Instant) (h : Heap) (r : CacheRef) (k : Key) (bs : Buffers)
    (p : Pool) : h.Grows (bs.get now h r k p).2.1 :=
  Buffer.grows_get (fun now h k c => grows_stackOps c.layers now h k c.state) now h k _ _

variable {τ : Type}

/-- The data source makes objects and sets properties, and takes nothing away. -/
structure DataSource.Keeps (D : DataSource τ) : Prop where
  query : ∀ st b param w (h : Heap) t, h.Keeps (D.query st b param w h t).2.1
  update : ∀ st b param (h : Heap) t, h.Keeps (D.update st b param h t).2.1

namespace Session.Deferred

theorem keeps_load (d : Session.Deferred) (loaded : Entries) (h : Heap) :
    h.Keeps (d.load loaded h).2 := by
  rw [load]
  split
  · exact .refl h
  · split
    · exact h.keeps_write d.object d.property _
    · exact .refl h

theorem keeps_loadAll (loaded : Entries) (ds : List Session.Deferred) (h : Heap) :
    h.Keeps (loadAll loaded ds h).2 := by
  induction ds generalizing h with
  | nil => exact .refl h
  | cons d ds ih =>
    have hload := d.keeps_load loaded h
    rw [loadAll]
    generalize d.load loaded h = x at hload
    obtain ⟨_ | ⟨⟩, i⟩ := x
    · exact hload
    · exact hload.trans (ih i)

end Session.Deferred

namespace State

theorem keeps_defer (d : Session.Deferred) (s : State τ) : s.heap.Keeps (s.defer d).2.heap := by
  rw [defer]
  split
  · exact .refl _
  · split
    · exact d.keeps_load s.session.loaded s.heap
    · exact .refl _

/-- Nothing that a session does in one go takes a property away. -/
theorem keeps_moves {D : DataSource τ} (hD : D.Keeps) :
    Moves D fun s t => s.heap.Keeps t.heap where
  refl s := .refl s.heap
  trans := .trans
  clear s := .refl s.heap
  flush st s := by
    obtain ⟨bs, hflush⟩ := s.flush_buffers st
    rw [hflush]
    exact .refl s.heap
  defer := keeps_defer
  change st param s := hD.update st st.binding param s.heap s.world.source
  source _ s := .refl s.heap
  commit s := .refl s.heap
  rollback s := .refl s.heap
  shut s := .refl s.heap
  drop s := .refl s.heap
  drain s := Session.Deferred.keeps_loadAll s.session.loaded s.session.deferred s.heap

theorem keeps_restoreOutputs (q : Query) (k : Key) (s : State τ) :
    s.heap.Keeps (s.restoreOutputs q k).heap := by
  rw [restoreOutputs]
  split
  · split
    · exact s.heap.keeps_foldl_write _ _ _
    · exact .refl _
  · exact .refl _

/-- Whatever a session does, no object loses anything. -/
theorem keeps_tracks {env : Env τ} (hD : env.source.Keeps) :
    Tracks env (fun _ _ => True) fun s t => s.heap.Keeps t.heap where
  refl s := .refl s.heap
  trans := .trans
  confined _ _ := Assembly.confined_all _
  quick _ hc h := (keeps_moves hD).of_quick hc h
  alloc r s := (Heap.grows_alloc s.heap r).keeps
  write o name v s := s.heap.keeps_write o name v
  note _ s := .refl s.heap
  source q s rows h x hasked := by
    have hkeeps := hD.query q.statement q.binding q.param q.window s.heap s.world.source
    rw [hasked] at hkeeps
    exact hkeeps
  flush := (keeps_moves hD).flush
  read r k s := (Buffers.grows_get s.world.now s.world.heap r k s.session.buffers s.world.pool).keeps
  put _ _ _ s := .refl s.heap
  release _ _ s := .refl s.heap
  anew s _ := .refl s.heap
  finish reply s _ := (keeps_moves hD).of_finish reply s
  keepRows _ _ s := .refl s.heap
  keepOutputs q k s := by
    obtain ⟨outputs, hkeep⟩ := s.keepOutputs_outputs q k
    rw [hkeep]
    exact .refl s.heap
  restoreOutputs := keeps_restoreOutputs
  loading h := h
  within h := h

end State

end ResultCache
