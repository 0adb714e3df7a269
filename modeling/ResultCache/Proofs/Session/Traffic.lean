import ResultCache.Proofs.Buffers
import ResultCache.Proofs.Cache.Names
import ResultCache.Proofs.Cache.Ownership
import ResultCache.Proofs.Session.Reach
import ResultCache.Proofs.Session.Transparency

/-!
# Sessions as units of work

All that a shared cache sees of a session are the calls of one unit of work: the buffer that the
session keeps in front of the cache, and the cache itself, change as `WorkCall.run` says, whatever
the session does (`State.reach_works`). So sessions in front of a cache that locks keys are a `Crew`
(`System.Shows`), and what is true of the locks there is true here.
-/
namespace ResultCache

namespace WorkCall

/-- What calls make of a buffer and of the cache, the latest call listed first. -/
def runAll {ρ : Type} (C : CacheOps ρ) (cs : List WorkCall) (m : Buffer × ρ) : Buffer × ρ :=
  cs.foldr (fun c m => c.run C m) m

theorem runAll_append {ρ : Type} (C : CacheOps ρ) (cs ds : List WorkCall) (m : Buffer × ρ) :
    runAll C (cs ++ ds) m = runAll C cs (runAll C ds m) := List.foldr_append

section Keeps

variable {σ : Type} {B : CacheOps σ} {P : σ → Prop} (hB : B.Keeps P)
include hB

theorem keeps_storeAll (h : Heap) (ws : List (Key × Entry)) (now : Instant) {s : σ} (hs : P s) :
    P (Buffer.storeAll B h now ws s).2 := by
  induction ws generalizing now s with
  | nil => exact hs
  | cons w ws ih =>
    rw [Buffer.storeAll]
    dsimp only
    split <;> exact ih (now + 1) (hB.put now h w.1 w.2 hs)

theorem keeps_removeAll (h : Heap) (ks : List Key) (now : Instant) {s : σ} (hs : P s) :
    P (Buffer.removeAll B h now ks s) := by
  induction ks generalizing now s with
  | nil => exact hs
  | cons k ks ih => exact ih (now + 1) (hB.remove now h k hs)

/-- What the cache leaves true of its state, every call does. -/
theorem keeps_run (c : WorkCall) {m : Buffer × σ} (hm : P m.2) : P (c.run B m).2 := by
  cases c with
  | get now h k =>
    have hget := hB.get now h k hm
    rw [run, Buffer.get]
    split
    · exact hm
    · split
      · exact hm
      · generalize B.get now h k m.2 = r at hget ⊢
        rcases r with ⟨_ | _ | _, h', c⟩ <;> exact hget
  | put k e => exact hm
  | clear => exact hm
  | release now h k =>
    rw [run, Buffer.release]
    split
    · exact hB.remove now h k hm
    · exact hm
  | commit now h w =>
    refine keeps_storeAll hB h _ (now + 1) ?_
    split
    · exact hB.clear now hm
    · exact hm
  | rollback now h w => exact keeps_removeAll hB h _ now hm

end Keeps

theorem storeAll_cache (ls : List Layer) (h : Heap) (ws : List (Key × Entry)) (now : Instant)
    (x : Stack ls) : (Buffer.storeAll Cache.ops h now ws ⟨ls, x⟩).2 =
      ⟨ls, (Buffer.storeAll (stackOps ls) h now ws x).2⟩ := by
  induction ws generalizing now x with
  | nil => rfl
  | cons w ws ih =>
    have hrest := ih (now + 1) ((stackOps ls).put now h w.1 w.2 x).2
    have hput : Cache.ops.put now h w.1 w.2 ⟨ls, x⟩ =
        (((stackOps ls).put now h w.1 w.2 x).1, ⟨ls, ((stackOps ls).put now h w.1 w.2 x).2⟩) := rfl
    rw [Buffer.storeAll, Buffer.storeAll, hput]
    dsimp only
    cases ((stackOps ls).put now h w.1 w.2 x).1 <;> exact hrest

theorem removeAll_cache (ls : List Layer) (h : Heap) (ks : List Key) (now : Instant)
    (x : Stack ls) : Buffer.removeAll Cache.ops h now ks ⟨ls, x⟩ =
      ⟨ls, Buffer.removeAll (stackOps ls) h now ks x⟩ := by
  induction ks generalizing now x with
  | nil => rfl
  | cons k ks ih => exact ih (now + 1) _

theorem get_cache (now : Instant) (h : Heap) (k : Key) (b : Buffer) (ls : List Layer)
    (x : Stack ls) : Buffer.get Cache.ops now h k b ⟨ls, x⟩ =
      ((Buffer.get (stackOps ls) now h k b x).1, (Buffer.get (stackOps ls) now h k b x).2.1,
        (Buffer.get (stackOps ls) now h k b x).2.2.1,
        ⟨ls, (Buffer.get (stackOps ls) now h k b x).2.2.2⟩) := by
  have hget : Cache.ops.get now h k ⟨ls, x⟩ = (((stackOps ls).get now h k x).1,
      ((stackOps ls).get now h k x).2.1, ⟨ls, ((stackOps ls).get now h k x).2.2⟩) := rfl
  rw [Buffer.get, Buffer.get, hget]
  cases b.pending.get? k with
  | some e => rfl
  | none =>
    dsimp only
    split
    · rfl
    · rcases (stackOps ls).get now h k x with ⟨_ | _ | _, h', y⟩ <;> rfl

/-- A cache is called as its stack is. -/
theorem run_cache (c : WorkCall) (b : Buffer) (ls : List Layer) (x : Stack ls) :
    c.run Cache.ops (b, ⟨ls, x⟩) =
      ((c.run (stackOps ls) (b, x)).1, ⟨ls, (c.run (stackOps ls) (b, x)).2⟩) := by
  cases c with
  | get now h k => rw [run, run, get_cache]
  | put k e => rfl
  | clear => rfl
  | release now h k =>
    rw [run, run, Buffer.release, Buffer.release]
    split <;> rfl
  | commit now h w =>
    refine Prod.ext rfl ?_
    have hclear : (if (w.order b).clearing then Cache.ops.clear now ⟨ls, x⟩ else ⟨ls, x⟩) =
        (⟨ls, if (w.order b).clearing then (stackOps ls).clear now x else x⟩ : Cache) := by
      split <;> rfl
    change (Buffer.storeAll Cache.ops h (now + 1) (w.order b).writes _).2 = _
    rw [hclear]
    exact storeAll_cache ls h (w.order b).writes (now + 1) _
  | rollback now h w => exact Prod.ext rfl (removeAll_cache ls h (w.order b).missed now x)

theorem runAll_cache (cs : List WorkCall) (b : Buffer) (ls : List Layer) (x : Stack ls) :
    runAll Cache.ops cs (b, ⟨ls, x⟩) =
      ((runAll (stackOps ls) cs (b, x)).1, ⟨ls, (runAll (stackOps ls) cs (b, x)).2⟩) := by
  induction cs with
  | nil => rfl
  | cons c cs ih =>
    change c.run Cache.ops (runAll Cache.ops cs (b, ⟨ls, x⟩)) = _
    rw [ih]
    exact run_cache c _ ls _

end WorkCall

/-- A cache whose outermost layer locks keys. -/
def Cache.gated {ls : List Layer} (c : Gate × Stack ls) : Cache := ⟨.gate :: ls, c⟩

theorem WorkCall.runAll_gated {ls : List Layer} (cs : List WorkCall) (b : Buffer)
    (c : Gate × Stack ls) : runAll Cache.ops cs (b, .gated c) =
      ((runAll (Gate.ops (stackOps ls)) cs (b, c)).1,
        .gated (runAll (Gate.ops (stackOps ls)) cs (b, c)).2) :=
  runAll_cache cs b (.gate :: ls) c

namespace Buffers

variable {ids : CacheRef → String} {bs : Buffers} {p : Pool} {q r : CacheRef}

theorem ids_find (hbs : bs.Placed ids) (hp : ∀ r, p.idOf r = ids r) (q : CacheRef) :
    ids (bs.find p q).1 = ids q := by
  rw [find, hp q]
  cases hq : bs.byId.get? (ids q) with
  | none => rfl
  | some e => exact hbs _ _ _ hq

theorem front_find (hbs : bs.Placed ids) (hp : ∀ r, p.idOf r = ids r)
    (hr : (bs.find p q).1 = r) : bs.front (ids r) r = (bs.find p q).2 := by
  have hids : ids r = ids q := by rw [← hr, ids_find hbs hp]
  rw [front, hids]
  rw [find, hp q] at hr ⊢
  cases hq : bs.byId.get? (ids q) with
  | none => rfl
  | some e =>
    rw [hq] at hr
    exact if_pos hr

theorem placed_keep (hbs : bs.Placed ids) (hp : ∀ r, p.idOf r = ids r) (q : CacheRef)
    (b : Buffer) : (bs.keep p q (bs.find p q).1 b).Placed ids := by
  intro id r c hc
  rw [keep, hp q] at hc
  by_cases hid : id = ids q
  · subst hid
    rw [Table.get?_insert_self] at hc
    cases hc
    exact ids_find hbs hp q
  · rw [Table.get?_insert_of_ne _ _ hid] at hc
    exact hbs id r c hc

theorem front_keep_self (hbs : bs.Placed ids) (hp : ∀ r, p.idOf r = ids r)
    (hr : (bs.find p q).1 = r) (b : Buffer) :
    (bs.keep p q (bs.find p q).1 b).front (ids r) r = b := by
  have hids : ids r = ids q := by rw [← hr, ids_find hbs hp]
  rw [front, keep, hp q, hids, Table.get?_insert_self]
  exact if_pos hr

theorem front_keep_of_ne (hp : ∀ r, p.idOf r = ids r) (hr : (bs.find p q).1 ≠ r) (b : Buffer) :
    (bs.keep p q (bs.find p q).1 b).front (ids r) r = bs.front (ids r) r := by
  rw [front, front, keep, hp q]
  by_cases hids : ids r = ids q
  · rw [hids, Table.get?_insert_self]
    rw [find, hp q] at hr ⊢
    dsimp only
    rw [if_neg hr]
    cases hq : bs.byId.get? (ids q) with
    | none => rfl
    | some e =>
      rw [hq] at hr
      exact (if_neg hr).symm
  · rw [Table.get?_insert_of_ne _ _ hids]

theorem get?_emptied (bs : Buffers) (id : String) :
    bs.emptied.byId.get? id = (bs.byId.get? id).map fun e => (e.1, .empty) := by
  change Table.find id (bs.byId.entries.map fun e => (e.1, e.2.1, Buffer.empty)) = _
  rw [Table.get?]
  induction bs.byId.entries with
  | nil => rfl
  | cons e es ih =>
    rw [List.map_cons, Table.find, Table.find, ih]
    split <;> rfl

theorem front_emptied (bs : Buffers) (id : String) (r : CacheRef) :
    bs.emptied.front id r = .empty := by
  rw [front, get?_emptied]
  cases bs.byId.get? id with
  | none => rfl
  | some e => exact ite_self _

theorem placed_emptied (hbs : bs.Placed ids) : bs.emptied.Placed ids := by
  intro id r b hb
  rw [get?_emptied, Option.map_eq_some_iff] at hb
  obtain ⟨⟨q, c⟩, hq, heq⟩ := hb
  cases heq
  exact hbs id q c hq

section CallEach

variable {ρ : Type} {C : CacheOps ρ} {c : Instant → WorkCall}

/-- Makes a call on every buffer, one after the other, in front of any caches. -/
def callEach (C : CacheOps ρ) (c : Instant → WorkCall) :
    Instant → List (String × CacheRef × Buffer) → (CacheRef → ρ) → CacheRef → ρ
  | _, [], caches => caches
  | now, (_, r, b) :: rest, caches =>
    callEach C c (now + b.span) rest (Function.update caches r ((c now).run C (b, caches r)).2)

/-- Each cache gets the call of the buffer in front of it, whatever the others answer. -/
theorem callEach_apply (hc : ∀ t x, ((c t).run C (.empty, x)).2 = x)
    {es : List (String × CacheRef × Buffer)} (hes : (es.map (·.2.1)).Nodup) (now : Instant)
    (caches : CacheRef → ρ) (r : CacheRef) :
    ∃ t, callEach C c now es caches r = ((c t).run C (inFront es r, caches r)).2 := by
  induction es generalizing now caches with
  | nil => exact ⟨now, (hc now _).symm⟩
  | cons e es ih =>
    obtain ⟨id, q, b⟩ := e
    obtain ⟨hq, hes'⟩ := List.nodup_cons.1 hes
    obtain ⟨t, ht⟩ := ih hes' (now + b.span)
      (Function.update caches q ((c now).run C (b, caches q)).2)
    rw [callEach, ht]
    by_cases hr : r = q
    · subst hr
      rw [inFront_of_not_mem hq, inFront_cons_self, Function.update_self]
      exact ⟨now, hc t _⟩
    · have hne : q ≠ r := Ne.symm hr
      rw [inFront_cons_of_ne hne, Function.update_of_ne hr]
      exact ⟨t, rfl⟩

theorem get_commitAll_eq (h : Heap) (es : List (String × CacheRef × Buffer)) (now : Instant)
    (p : Pool) :
    (commitAll h now es p).2.get =
      callEach Cache.ops (fun t => .commit t h .insertion) now es p.get := by
  induction es generalizing now p with
  | nil => rfl
  | cons e es ih =>
    obtain ⟨id, q, b⟩ := e
    have hcons : (commitAll h now ((id, q, b) :: es) p).2 =
        (commitAll h (now + b.span) es (p.set q (b.commit Cache.ops now h (p.get q)).2.2)).2 := by
      rw [commitAll]
      dsimp only
      split <;> rfl
    rw [hcons, ih, Pool.get_set_eq]
    rfl

theorem get_rollbackAll_eq (h : Heap) (es : List (String × CacheRef × Buffer)) (now : Instant)
    (p : Pool) :
    (rollbackAll h now es p).get =
      callEach Cache.ops (fun t => .rollback t h .insertion) now es p.get := by
  induction es generalizing now p with
  | nil => rfl
  | cons e es ih =>
    rw [rollbackAll]
    dsimp only
    rw [ih, Pool.get_set_eq]
    rfl

end CallEach

/-- A commit of all buffers, in whatever order, commits the buffer in front of each cache at some
moment and in some order. -/
theorem get_commitAll (h : Heap) (hbs : bs.Placed ids) {bs' : Buffers} (hr : bs.Reordered bs')
    (now : Instant) (p : Pool) (r : CacheRef) :
    ∃ t w, (commitAll h now bs'.byId.entries p).2.get r =
      ((WorkCall.commit t h w).run Cache.ops (inFront bs.byId.entries r, p.get r)).2 := by
  obtain ⟨w, hw⟩ := (hbs.reordered_inFront hr r).exists_walk
  obtain ⟨t, ht⟩ := callEach_apply (C := Cache.ops) (c := fun t => .commit t h .insertion)
    (fun _ _ => rfl) (hbs.of_reordered hr).nodup now p.get r
  rw [← hw] at ht
  exact ⟨t, w, (congrFun (get_commitAll_eq h _ now p) r).trans ht⟩

theorem get_rollbackAll (h : Heap) (hbs : bs.Placed ids) {bs' : Buffers} (hr : bs.Reordered bs')
    (now : Instant) (p : Pool) (r : CacheRef) :
    ∃ t w, (rollbackAll h now bs'.byId.entries p).get r =
      ((WorkCall.rollback t h w).run Cache.ops (inFront bs.byId.entries r, p.get r)).2 := by
  obtain ⟨w, hw⟩ := (hbs.reordered_inFront hr r).exists_walk
  obtain ⟨t, ht⟩ := callEach_apply (C := Cache.ops) (c := fun t => .rollback t h .insertion)
    (fun _ _ => rfl) (hbs.of_reordered hr).nodup now p.get r
  rw [← hw] at ht
  exact ⟨t, w, (congrFun (get_rollbackAll_eq h _ now p) r).trans ht⟩

end Buffers

namespace State

variable {τ : Type} {ids : CacheRef → String} {s t : State τ}

/-- The names of the caches, and every buffer kept under the name of its cache. -/
structure Named (ids : CacheRef → String) (s : State τ) : Prop where
  pool : ∀ r, s.world.pool.idOf r = ids r
  buffers : s.session.buffers.Placed ids

/-- The session as a unit of work in front of a cache, and the cache. -/
def unit (ids : CacheRef → String) (r : CacheRef) (s : State τ) : Buffer × Cache :=
  (s.session.buffers.front (ids r) r, s.world.pool.get r)

/-- What happened to each cache is that its unit of work made some calls. -/
def Works (s t : State τ) : Prop :=
  ∀ ids, s.Named ids → t.Named ids ∧
    ∀ r, ∃ cs, t.unit ids r = WorkCall.runAll Cache.ops cs (s.unit ids r)

theorem Works.trans {u : State τ} (hst : s.Works t) (htu : t.Works u) : s.Works u := by
  intro ids hs
  obtain ⟨ht, hcs⟩ := hst ids hs
  obtain ⟨hu, hds⟩ := htu ids ht
  refine ⟨hu, fun r => ?_⟩
  obtain ⟨cs, hc⟩ := hcs r
  obtain ⟨ds, hd⟩ := hds r
  exact ⟨ds ++ cs, by rw [hd, hc, WorkCall.runAll_append]⟩

theorem works_of_eq (hbuffers : t.session.buffers = s.session.buffers)
    (hpool : t.world.pool = s.world.pool) : s.Works t := by
  intro ids hs
  refine ⟨⟨?_, ?_⟩, fun r => ⟨[], ?_⟩⟩
  · rw [hpool]
    exact hs.pool
  · rw [hbuffers]
    exact hs.buffers
  · rw [unit, unit, hbuffers, hpool]
    rfl

/-- The target of a name, and the buffer in front of it, after one call on that buffer. -/
def called (c : WorkCall) (q : CacheRef) (s : State τ) : Buffer × Cache :=
  c.run Cache.ops ((s.session.buffers.find s.world.pool q).2,
    s.world.pool.get (s.session.buffers.find s.world.pool q).1)

/-- One call on the buffer that the session uses for a cache, and nothing else. -/
structure Calls (c : WorkCall) (q : CacheRef) (s t : State τ) : Prop where
  buffers : t.session.buffers = s.session.buffers.keep s.world.pool q
    (s.session.buffers.find s.world.pool q).1 (s.called c q).1
  pool : ∀ r, t.world.pool.get r =
    if r = (s.session.buffers.find s.world.pool q).1 then (s.called c q).2 else s.world.pool.get r

theorem calls_clear (r : CacheRef) (s : State τ) : s.Calls .clear r { s with
    session := { s.session with buffers := s.session.buffers.clear r s.world.pool } } := by
  refine ⟨rfl, fun q => ?_⟩
  split
  · rename_i hq
    rw [hq]
    rfl
  · rfl

theorem calls_put (r : CacheRef) (k : Key) (e : Entry) (s : State τ) :
    s.Calls (.put k e) r (s.putShared r k e) := by
  refine ⟨rfl, fun q => ?_⟩
  split
  · rename_i hq
    rw [hq]
    rfl
  · rfl

theorem calls_get (r : CacheRef) (k : Key) (s : State τ) :
    s.Calls (.get s.world.now s.world.heap k) r (s.readShared r k).2 := by
  refine ⟨rfl, fun q => ?_⟩
  split
  · rename_i hq
    rw [hq]
    exact Pool.get_set_self _ _ _
  · rename_i hq
    exact Pool.get_set_of_ne _ _ hq

theorem calls_release (r : CacheRef) (k : Key) (s : State τ) :
    s.Calls (.release s.world.now s.world.heap k) r (s.releaseShared r k) := by
  refine ⟨rfl, fun q => ?_⟩
  split
  · rename_i hq
    rw [hq]
    exact Pool.get_set_self _ _ _
  · rename_i hq
    exact Pool.get_set_of_ne _ _ hq

namespace Calls

variable {c : WorkCall} {q : CacheRef} (h : s.Calls c q t)

include h

theorem named (hs : s.Named ids) : t.Named ids := by
  refine ⟨fun r => ?_, ?_⟩
  · rw [Pool.idOf, h.pool r]
    split
    · rename_i hr
      have hid : (s.world.pool.get r).id = ids r := hs.pool r
      rw [hr] at hid ⊢
      exact WorkCall.keeps_run (Cache.keeps_id _) c hid
    · exact hs.pool r
  · rw [h.buffers]
    exact Buffers.placed_keep hs.buffers hs.pool q _

/-- It is a call of the unit of work in front of one cache. -/
theorem unit (hs : s.Named ids) (r : CacheRef) :
    t.unit ids r = if (s.session.buffers.find s.world.pool q).1 = r then
      c.run Cache.ops (s.unit ids r) else s.unit ids r := by
  rw [State.unit, State.unit, h.buffers, h.pool r]
  by_cases hr : (s.session.buffers.find s.world.pool q).1 = r
  · rw [if_pos hr, if_pos hr.symm, Buffers.front_keep_self hs.buffers hs.pool hr,
      Buffers.front_find hs.buffers hs.pool hr, called, hr]
  · rw [if_neg hr, if_neg (Ne.symm hr), Buffers.front_keep_of_ne hs.pool hr]

theorem works : s.Works t := by
  intro ids hs
  refine ⟨h.named hs, fun r => ?_⟩
  rw [h.unit hs r]
  split
  · exact ⟨[c], rfl⟩
  · exact ⟨[], rfl⟩

end Calls

/-- All buffers are emptied, each by a call of its own. -/
structure Empties (c : Instant → Buffer.Walk → WorkCall) (s t : State τ) : Prop where
  empties : ∀ now w (C : CacheOps Cache) m, ((c now w).run C m).1 = .empty
  buffers : ∃ bs, s.session.buffers.Reordered bs ∧ t.session.buffers = bs.emptied
  pool : ∀ ids, s.session.buffers.Placed ids → ∀ r, ∃ now w, t.world.pool.get r =
    ((c now w).run Cache.ops (Buffers.inFront s.session.buffers.byId.entries r,
      s.world.pool.get r)).2

theorem empties_commit (s : State τ) :
    s.Empties (fun now => .commit now s.world.heap) s.commitBuffers.2 :=
  ⟨fun _ _ _ _ => rfl, ⟨_, s.reordered_walked, rfl⟩,
    fun _ hs r => Buffers.get_commitAll s.world.heap hs s.reordered_walked s.world.now s.world.pool r⟩

theorem empties_rollback (s : State τ) :
    s.Empties (fun now => .rollback now s.world.heap) s.rollbackBuffers :=
  ⟨fun _ _ _ _ => rfl, ⟨_, s.reordered_walked, rfl⟩, fun _ hs r =>
    Buffers.get_rollbackAll s.world.heap hs s.reordered_walked s.world.now s.world.pool r⟩

namespace Empties

variable {c : Instant → Buffer.Walk → WorkCall} (h : s.Empties c t)

include h

theorem named (hs : s.Named ids) : t.Named ids := by
  refine ⟨fun r => ?_, ?_⟩
  · obtain ⟨now, w, hget⟩ := h.pool ids hs.buffers r
    rw [Pool.idOf, hget]
    have hid : (s.world.pool.get r).id = ids r := hs.pool r
    exact WorkCall.keeps_run (Cache.keeps_id _) (c now w) hid
  · obtain ⟨bs, hreordered, hbuffers⟩ := h.buffers
    rw [hbuffers]
    exact Buffers.placed_emptied (hs.buffers.of_reordered hreordered)

theorem unit (hs : s.Named ids) (r : CacheRef) :
    ∃ now w, t.unit ids r = (c now w).run Cache.ops (s.unit ids r) := by
  obtain ⟨now, w, hget⟩ := h.pool ids hs.buffers r
  obtain ⟨bs, -, hbuffers⟩ := h.buffers
  refine ⟨now, w, ?_⟩
  rw [State.unit, State.unit, hbuffers, Buffers.front_emptied, hget,
    Buffers.inFront_eq_front hs.buffers]
  exact Prod.ext (h.empties now w Cache.ops _).symm rfl

/-- Only buffers and caches count. -/
theorem of_eq {u v : State τ} (hbefore : s.session.buffers = u.session.buffers)
    (hpool : s.world.pool = u.world.pool) (hafter : v.session.buffers = t.session.buffers)
    (hpool' : v.world.pool = t.world.pool) : u.Empties c v := by
  refine ⟨h.empties, ?_, ?_⟩
  · rw [hafter, ← hbefore]
    exact h.buffers
  · rw [← hbefore, ← hpool, hpool']
    exact h.pool

theorem works : s.Works t := by
  intro ids hs
  refine ⟨h.named hs, fun r => ?_⟩
  obtain ⟨now, w, hunit⟩ := h.unit hs r
  exact ⟨[c now w], hunit⟩

end Empties

/-- Whatever a session does, what the caches see of it are calls of units of work. -/
theorem reach_works : Reach (Works : State τ → State τ → Prop) where
  trans := Works.trans
  quiet := works_of_eq
  clear r s := (calls_clear r s).works
  put r k e s := (calls_put r k e s).works
  get r k s := (calls_get r k s).works
  release r k s := (calls_release r k s).works
  commit s := (empties_commit s).works
  rollback s := (empties_rollback s).works

end State

namespace Crew

variable {σ : Type} {B : CacheOps σ}

theorem after_append (s : Crew σ) (past before : List (Nat × WorkCall)) :
    after B s (past ++ before) = after B (after B s before) past := by
  induction past with
  | nil => rfl
  | cons e past ih => exact congrArg (step B e.1 e.2) ih

/-- Calls of one unit of work. -/
theorem after_map (s : Crew σ) (i : Nat) (cs : List WorkCall) :
    after B s (cs.map fun c => (i, c)) =
      ⟨Function.update s.units i (WorkCall.runAll (Gate.ops B) cs (s.units i, s.cache)).1,
        (WorkCall.runAll (Gate.ops B) cs (s.units i, s.cache)).2⟩ := by
  induction cs with
  | nil => exact congrArg (Crew.mk · s.cache) (Function.update_eq_self i s.units).symm
  | cons c cs ih =>
    rw [List.map_cons, after, ih, step]
    dsimp only
    rw [Function.update_self, Function.update_idem]
    rfl

end Crew

namespace System

variable {τ : Type} {env : Env τ} {r : CacheRef} {ls : List Layer}

/-- What a session keeps in front of a cache. -/
def buffer (S : System τ) (r : CacheRef) (i : Nat) : Buffer :=
  (S.sessions i).buffers.front (S.world.pool.idOf r) r

/-- The sessions of a system are the units of work of a crew, in front of a cache that locks keys. -/
structure Shows (S : System τ) (r : CacheRef) (s : Crew (Stack ls)) : Prop where
  units : ∀ i, S.buffer r i = s.units i
  cache : S.world.pool.get r = .gated s.cache

/-- The names of the caches, and all buffers kept under the names of their caches. -/
structure Named (ids : CacheRef → String) (S : System τ) : Prop where
  state : ∀ i, (S.state i).Named ids

/-- A session that has made some calls of its unit of work goes back to the others. -/
theorem Named.shows_back {ids : CacheRef → String} {S : System τ} (hS : S.Named ids)
    {s : Crew (Stack ls)} (hs : S.Shows r s) {i : Nat} {t : State τ} (ht : t.Named ids)
    {cs : List WorkCall}
    (hcs : t.unit ids r = WorkCall.runAll Cache.ops cs ((S.state i).unit ids r)) :
    (S.back i t).Named ids ∧
      (S.back i t).Shows r (Crew.after (stackOps ls) s (cs.map fun c => (i, c))) := by
  have hsessions : ∀ j, j ≠ i → (S.back i t).sessions j = S.sessions j := fun j hj =>
    Function.update_of_ne hj _ _
  have hself : (S.back i t).sessions i = t.session := Function.update_self _ _ _
  refine ⟨⟨fun j => ⟨ht.pool, ?_⟩⟩, ?_⟩
  · change ((S.back i t).sessions j).buffers.Placed ids
    by_cases hj : j = i
    · rw [hj, hself]
      exact ht.buffers
    · rw [hsessions j hj]
      exact (hS.state j).buffers
  · have hunit : (S.state i).unit ids r = (s.units i, .gated s.cache) := by
      have hname : S.world.pool.idOf r = ids r := (hS.state i).pool r
      refine Prod.ext ?_ hs.cache
      rw [← hs.units i, buffer, hname]
      rfl
    rw [hunit, WorkCall.runAll_gated] at hcs
    have hname : (S.back i t).world.pool.idOf r = ids r := ht.pool r
    refine ⟨fun j => ?_, ?_⟩
    · rw [buffer, hname, Crew.after_map]
      dsimp only
      by_cases hj : j = i
      · subst hj
        rw [hself, Function.update_self]
        exact congrArg Prod.fst hcs
      · rw [hsessions j hj, Function.update_of_ne hj, ← hs.units j, buffer]
        exact congrArg (fun id => (S.sessions j).buffers.front id r) ((hS.state i).pool r).symm
    · rw [Crew.after_map]
      exact congrArg Prod.snd hcs

/-- A call of one session is some calls of its unit of work. -/
theorem Named.shows_call {ids : CacheRef → String} {S S' : System τ} (hS : S.Named ids)
    {s : Crew (Stack ls)} (hs : S.Shows r s) {limit i : Nat} {β : Type} {c : Call β} {b : β}
    (hcall : S.call env limit i c = some (b, S')) :
    S'.Named ids ∧
      ∃ cs : List WorkCall,
        S'.Shows r (Crew.after (stackOps ls) s (cs.map fun c => (i, c))) := by
  obtain ⟨⟨b', t⟩, hperform, hback⟩ := Option.map_eq_some_iff.1 hcall
  cases hback
  obtain ⟨ht, hworks⟩ := State.reach_works.perform limit c hperform ids (hS.state i)
  obtain ⟨cs, hcs⟩ := hworks r
  obtain ⟨hnamed, hshows⟩ := hS.shows_back hs ht hcs
  exact ⟨hnamed, cs, hshows⟩

/-- New sessions in front of a cache that locks keys, with no key locked. -/
structure Gated (S : System τ) (r : CacheRef) (timeout : Option Nat) (below : Stack ls) : Prop where
  sessions : ∀ i, ∃ c walk, S.sessions i = .new c walk
  cache : S.world.pool.get r = .gated (Gate.ofTimeout timeout, below)

variable {timeout : Option Nat} {below : Stack ls} {S₀ S S' : System τ}

theorem Gated.named (h₀ : S₀.Gated r timeout below) : S₀.Named S₀.world.pool.idOf := by
  refine ⟨fun i => ⟨fun _ => rfl, ?_⟩⟩
  obtain ⟨c, walk, hc⟩ := h₀.sessions i
  change (S₀.sessions i).buffers.Placed _
  rw [hc]
  exact fun _ _ _ hb => (by cases hb)

theorem Gated.shows (h₀ : S₀.Gated r timeout below) : S₀.Shows r (Crew.start timeout below) := by
  refine ⟨fun i => ?_, h₀.cache⟩
  obtain ⟨c, walk, hc⟩ := h₀.sessions i
  rw [buffer, hc]
  rfl

/-- Sessions were called one after the other, callers made and changed objects, time passed, and the
data source changed. What the sessions asked of their buffers in front of one cache was, all in all,
`past`, the latest call listed first. -/
inductive Traffic (env : Env τ) (r : CacheRef) (s₀ : Crew (Stack ls)) (S₀ : System τ) :
    List (Nat × WorkCall) → System τ → Prop
  | start : Traffic env r s₀ S₀ [] S₀
  | call {past : List (Nat × WorkCall)} {S S' : System τ} {limit i : Nat} {β : Type} {c : Call β}
    {b : β} (cs : List WorkCall) : Traffic env r s₀ S₀ past S →
    S.call env limit i c = some (b, S') →
    S'.Shows r (Crew.after (stackOps ls) s₀ (cs.map (fun c => (i, c)) ++ past)) →
    Traffic env r s₀ S₀ (cs.map (fun c => (i, c)) ++ past) S'
  | outside {past : List (Nat × WorkCall)} {S : System τ} (h : Heap) (now : Instant) (t : τ) :
    Traffic env r s₀ S₀ past S →
    Traffic env r s₀ S₀ past { S with world := { S.world with heap := h, now := now, source := t } }

variable {past : List (Nat × WorkCall)}

theorem Gated.traffic (h₀ : S₀.Gated r timeout below)
    (hS : Traffic env r (Crew.start timeout below) S₀ past S) :
    S.Named S₀.world.pool.idOf ∧
      S.Shows r (Crew.after (stackOps ls) (Crew.start timeout below) past) := by
  induction hS with
  | start => exact ⟨h₀.named, h₀.shows⟩
  | call cs _ hcall hshows ih => exact ⟨(ih.1.shows_call ih.2 hcall).1, hshows⟩
  | outside h now t _ ih =>
    exact ⟨⟨fun i => ⟨(ih.1.state i).pool, (ih.1.state i).buffers⟩⟩, ih.2.units, ih.2.cache⟩

/-- Every call of a session has its calls of a unit of work. -/
theorem Gated.traffic_call (h₀ : S₀.Gated r timeout below)
    (hS : Traffic env r (Crew.start timeout below) S₀ past S) {limit i : Nat} {β : Type}
    {c : Call β} {b : β} (hcall : S.call env limit i c = some (b, S')) :
    ∃ cs : List WorkCall,
      Traffic env r (Crew.start timeout below) S₀ (cs.map (fun c => (i, c)) ++ past) S' := by
  obtain ⟨hnamed, hshows⟩ := h₀.traffic hS
  obtain ⟨-, cs, hcs⟩ := hnamed.shows_call hshows hcall
  rw [← Crew.after_append] at hcs
  exact ⟨cs, hS.call cs hcall hcs⟩

/-- Locks are owned as long as nobody publishes a put for a key that somebody else misses and it has
not missed itself; and as long as that is so, a key is outstanding for one unit of work at a time.
That holds of units of work over any cache, and of sessions, which are units of work whatever they
are asked to do. -/
theorem locks_owned_iff_apart (timeout : Option Nat) :
    (∀ (σ : Type) (B : CacheOps σ) (below : σ) (past : List (Nat × WorkCall)),
      let s := Crew.start timeout below
      (Crew.Owned B s past ↔ Crew.Apart B s past) ∧
      (Crew.Apart B s past → ∀ k i j, k ∈ (Crew.after B s past).missed i →
        k ∈ (Crew.after B s past).missed j → i = j)) ∧
    ∀ (τ : Type) (env : Env τ) (r : CacheRef) (ls : List Layer) (below : Stack ls)
      (S₀ : System τ), S₀.Gated r timeout below →
      ∀ past S, Traffic env r (Crew.start timeout below) S₀ past S →
        let s := Crew.start timeout below
        (∀ limit i β (c : Call β) b S', S.call env limit i c = some (b, S') →
          ∃ cs : List WorkCall, Traffic env r s S₀ (cs.map (fun c => (i, c)) ++ past) S') ∧
        (Crew.Owned (stackOps ls) s past ↔ Crew.Apart (stackOps ls) s past) ∧
        (Crew.Apart (stackOps ls) s past → ∀ k i j, k ∈ (S.buffer r i).missed →
          k ∈ (S.buffer r j).missed → i = j) := by
  have hunits : ∀ (σ : Type) (B : CacheOps σ) (below : σ) (past : List (Nat × WorkCall)),
      Crew.Apart B (Crew.start timeout below) past → ∀ k i j,
      k ∈ (Crew.after B (Crew.start timeout below) past).missed i →
      k ∈ (Crew.after B (Crew.start timeout below) past).missed j → i = j := by
    intro σ B below past hapart k i j hi hj
    have htaker := (hapart.taker_of_missed hi).2
    rw [(hapart.taker_of_missed hj).2] at htaker
    exact (Option.some.inj htaker).symm
  refine ⟨fun σ B below past => ⟨Crew.owned_iff_apart, hunits σ B below past⟩,
    fun τ env r ls below S₀ h₀ past S hS => ⟨fun limit i β c b S' hcall => ?_,
      Crew.owned_iff_apart, fun hapart k i j hi hj => ?_⟩⟩
  · exact h₀.traffic_call hS hcall
  · obtain ⟨-, hshows⟩ := h₀.traffic hS
    rw [hshows.units] at hi hj
    exact hunits _ _ below past hapart k i j hi hj

/-- Steps of a system are traffic. -/
theorem Gated.traffic_step (h₀ : S₀.Gated r timeout below)
    (hS : Traffic env r (Crew.start timeout below) S₀ past S) {limit : Nat} {a : Act}
    {x : Option Reply} (hstep : S.step env limit a = some (x, S')) :
    ∃ past', Traffic env r (Crew.start timeout below) S₀ past' S' := by
  have hcall : ∀ {i : Nat} {β : Type} {c : Call β} {f : β → Option Reply},
      (S.call env limit i c).map (fun p => (f p.1, p.2)) = some (x, S') →
      ∃ past', Traffic env r (Crew.start timeout below) S₀ past' S' := by
    intro i β c f hmap
    obtain ⟨⟨b, T⟩, hcall, heq⟩ := Option.map_eq_some_iff.1 hmap
    cases heq
    obtain ⟨cs, hcs⟩ := h₀.traffic_call hS hcall
    exact ⟨_, hcs⟩
  cases a with
  | query i st param w => exact hcall (f := some) hstep
  | update i st param => exact hcall (c := .update st param) (f := fun _ => none) hstep
  | commit i required => exact hcall (c := .commit required) (f := fun _ => none) hstep
  | rollback i required => exact hcall (c := .rollback required) (f := fun _ => none) hstep
  | close i force => exact hcall (c := .close force) (f := fun _ => none) hstep
  | make rec =>
    cases hstep
    exact ⟨past, hS.outside (S.heap.alloc rec).2 S.world.now S.world.source⟩
  | write o name v =>
    cases hstep
    exact ⟨past, hS.outside (S.heap.write o name v) S.world.now S.world.source⟩
  | wait d =>
    cases hstep
    exact ⟨past, hS.outside S.world.heap (S.world.now + d) S.world.source⟩

theorem Gated.traffic_steps (h₀ : S₀.Gated r timeout below)
    (hS : Traffic env r (Crew.start timeout below) S₀ past S) {limit : Nat} {as : List Act}
    {ms ms' : List (Moment τ)} (hsteps : S.steps env limit as ms = some (ms', S')) :
    ∃ past', Traffic env r (Crew.start timeout below) S₀ past' S' := by
  induction as generalizing past S ms with
  | nil =>
    cases hsteps
    exact ⟨past, hS⟩
  | cons a as ih =>
    obtain ⟨⟨x, T⟩, hstep, hrest⟩ := Option.bind_eq_some_iff.1 hsteps
    obtain ⟨past', hT⟩ := h₀.traffic_step hS hstep
    exact ih hT hrest

/-- What is below the lock layer of the shared cache. -/
def gatedStore : Stack [] := Store.perpetual "b"

/-- New sessions that share a cache with a layer that locks keys, for at most 100 milliseconds. -/
def gatedSystem : System Unit :=
  ⟨fun _ => .ofConfig .standard,
    ⟨.empty, Pool.empty.set ⟨0⟩ (.gated (Gate.ofTimeout (some 100), gatedStore)), 0, ()⟩⟩

theorem gated_gatedSystem :
    gatedSystem.Gated ⟨0⟩ (some 100) gatedStore :=
  ⟨fun _ => ⟨.standard, .insertion, rfl⟩, Pool.get_set_self _ _ _⟩

/-- Session 0 puts a row that it found in the cache, behind its own pending clear, and commits while
session 1 misses the key. Session 2 then misses it too. -/
def intrudingActs : List Act :=
  [.query 0 rowQuery (.int 1) .unbounded, .commit 0 true,
    .update 0 rowUpdate .null, .query 0 rowQuery (.int 1) .unbounded,
    .update 1 rowUpdate .null, .commit 1 true, .query 1 rowQuery (.int 1) .unbounded,
    .commit 0 true,
    .update 2 rowUpdate .null, .commit 2 true, .query 2 rowQuery (.int 1) .unbounded]

/-- The key of the query for the row. -/
def rowKey : Key :=
  Session.keyOf flatHash .empty .standard (.ofStatement rowQuery (.int 1) .unbounded)

/-- A lock that a session took is given back by another one, and then two sessions have one key
outstanding. -/
theorem two_sessions_miss_one_key :
    ∃ past S, Traffic rowEnv ⟨0⟩ (Crew.start (some 100) gatedStore) gatedSystem past S ∧
      ¬ Crew.Owned (stackOps []) (Crew.start (some 100) gatedStore) past ∧
      ∃ k, k ∈ (S.buffer ⟨0⟩ 1).missed ∧ k ∈ (S.buffer ⟨0⟩ 2).missed := by
  have hrun : ((gatedSystem.steps rowEnv 1 intrudingActs []).map fun p =>
      ((p.2.buffer ⟨0⟩ 1).missed, (p.2.buffer ⟨0⟩ 2).missed)) = some ([rowKey], [rowKey]) := by
    decide +kernel
  obtain ⟨⟨ms, S⟩, hsteps, hmissed⟩ := Option.map_eq_some_iff.1 hrun
  obtain ⟨past, hS⟩ := gated_gatedSystem.traffic_steps .start hsteps
  have hone : (S.buffer ⟨0⟩ 1).missed = [rowKey] := congrArg Prod.fst hmissed
  have htwo : (S.buffer ⟨0⟩ 2).missed = [rowKey] := congrArg Prod.snd hmissed
  have h₁ : rowKey ∈ (S.buffer ⟨0⟩ 1).missed := by simp [hone]
  have h₂ : rowKey ∈ (S.buffer ⟨0⟩ 2).missed := by simp [htwo]
  refine ⟨past, S, hS, fun howned => ?_, rowKey, h₁, h₂⟩
  have hapart := Crew.owned_iff_apart.1 howned
  obtain ⟨-, hshows⟩ := gated_gatedSystem.traffic hS
  rw [hshows.units] at h₁ h₂
  have htaker := (hapart.taker_of_missed h₁).2
  rw [(hapart.taker_of_missed h₂).2] at htaker
  cases htaker

end System

end ResultCache
