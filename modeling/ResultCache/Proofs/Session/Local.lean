import ResultCache.Proofs.Session.Source

/-!
# Answers that the session gives itself

What a session keeps is right (`Session.Kept`) if the results of its own queries are right rows and
no property waits. A query that is answered from these results or from the data source then gives
right rows or a fault, and leaves the session as right as it was (`State.answerLocal_right`). The
objects that the answer leads to (`Reply.reached`) join the region that nobody changes.
-/
namespace ResultCache

/-- The objects that a reply leads to. -/
def Reply.reached (reply : Reply) (h : Heap) (o : ObjId) : Prop :=
  ∃ vs, reply.result = .ok vs ∧ h.Reaches (Heap.named vs) o

variable {τ : Type} {R : Key → List Frozen → Prop} {K K' : ObjId → Prop} {h h' : Heap} {k : Key}

theorem Reply.reached_of_ok {reply : Reply} {vs : List Value} (hvs : reply.result = .ok vs)
    {o : ObjId} : reply.reached h o ↔ h.Reaches (Heap.named vs) o := by
  refine ⟨fun ho => ?_, fun ho => ⟨vs, hvs, ho⟩⟩
  obtain ⟨ws, hws, ho⟩ := ho
  rw [hvs] at hws
  cases hws
  exact ho

theorem Reply.not_reached_of_error {reply : Reply} {f : Fault} (hf : reply.result = .error f)
    {o : ObjId} : ¬ reply.reached h o := by
  rintro ⟨vs, hvs, -⟩
  rw [hf] at hvs
  cases hvs

/-- Rows in a region are rows in what is reached from them. -/
theorem Entry.Right.reaches {vs : List Value} {M : ObjId → Prop}
    (hvs : (Entry.rows vs).Right R M h k) :
    (Entry.rows vs).Right R (h.Reaches (Heap.named vs)) h k := by
  obtain ⟨fs, hfs, hstands⟩ := hvs
  cases hstands with | rows hw hlen => exact ⟨_, hfs, .rows (Heap.within_reaches hw) hlen⟩

theorem Entry.Right.region_reaches {vs : List Value} {M : ObjId → Prop} (hM : h.Region M)
    (hvs : (Entry.rows vs).Right R M h k) : h.Region (h.Reaches (Heap.named vs)) := by
  obtain ⟨fs, -, hstands⟩ := hvs
  cases hstands with | rows hw _ =>
  refine hM.reaches fun o ho => ?_
  obtain ⟨v, hv, hr⟩ := ho
  exact (hw v hv).of_refers hr

theorem Reply.Right.region {reply : Reply} (hr : reply.Right R k h) :
    h.Region (reply.reached h) := by
  intro o ho
  obtain ⟨vs, hvs, hreach⟩ := ho
  obtain ⟨M, hM, hright⟩ := hr vs hvs
  obtain ⟨r, hrec, hw⟩ := hright.region_reaches hM o hreach
  exact ⟨r, hrec, hw.mono fun q hq => ⟨vs, hvs, hq⟩⟩

/-- The rows of a right reply, in a region that has what is reached from them. -/
theorem Reply.Right.entry {reply : Reply} (hr : reply.Right R k h) {vs : List Value}
    (hvs : reply.result = .ok vs) :
    (Entry.rows vs).Right R (fun o => K o ∨ reply.reached h o) h k := by
  obtain ⟨M, hM, hright⟩ := hr vs hvs
  exact hright.reaches.of_agreeOn (hright.region_reaches hM) (fun _ _ => rfl)
    fun o ho => .inr ⟨vs, hvs, ho⟩

@[simp] theorem Session.buffers_clearLoaded (s : Session) : s.clearLoaded.buffers = s.buffers := by
  rw [clearLoaded]
  split <;> rfl

@[simp] theorem Session.depth_clearLoaded (s : Session) : s.clearLoaded.depth = s.depth := by
  rw [clearLoaded]
  split <;> rfl

/-- The results that a session keeps are right, the parameters it keeps exist, and no property
waits. -/
structure Session.Kept (R : Key → List Frozen → Prop) (K : ObjId → Prop) (h : Heap)
    (s : Session) : Prop where
  loaded : ∀ k e, s.loaded.get? k = some e → e.Right R K h k
  outputs : ∀ k r, s.outputs.get? k = some r → r.Known h
  deferred : s.deferred = []

namespace Session.Kept

variable {s : Session}

theorem mono {S : Key → List Frozen → Prop} (hRS : ∀ k fs, R k fs → S k fs)
    (hs : s.Kept R K h) : s.Kept S K h :=
  ⟨fun k e he => (hs.loaded k e he).mono hRS, hs.outputs, hs.deferred⟩

theorem of_evolves (hK : h.Region K) (hh : Heap.Evolves K h h') (hKK' : ∀ o, K o → K' o)
    (hs : s.Kept R K h) : s.Kept R K' h' :=
  ⟨fun k e he => (hs.loaded k e he).of_agreeOn hK hh.agree hKK',
    fun k r hr => (hs.outputs k r hr).mono hh.size_le, hs.deferred⟩

theorem clearLoaded (hs : s.Kept R K h) : s.clearLoaded.Kept R K h := by
  rw [Session.clearLoaded]
  split
  · exact hs
  · exact ⟨fun _ _ he => (by cases he), fun _ _ hr => (by cases hr), hs.deferred⟩

end Session.Kept

namespace State

/-- What is known of an answer that does not touch the shared caches. -/
structure Serves (R : Key → List Frozen → Prop) (K : ObjId → Prop) (k : Key) (s : State τ)
    (reply : Reply) (s' : State τ) : Prop where
  buffers : s'.session.buffers = s.session.buffers
  depth : s'.session.depth = s.session.depth
  pool : s'.world.pool = s.world.pool
  evolves : Heap.Evolves K s.heap s'.heap
  right : reply.Right R k s'.heap
  kept : s'.session.Kept R (fun o => K o ∨ reply.reached s'.heap o) s'.heap

variable {answer : Answer} {D : DataSource τ} {st : Statement} {param : Value} {w : Window}
  {s : State τ}

/-- The results of the session without the mark of a key that was loading. -/
theorem kept_unmark_mark (hs : s.session.Kept R K s.heap) (k : Key) :
    ((s.mark k).unmark k).session.Kept R K s.heap := by
  refine ⟨fun j e he => ?_, hs.outputs, hs.deferred⟩
  have he' : ((s.session.loaded.insert k .loading).erase k).get? j = some e := he
  by_cases hj : j = k
  · subst hj
    rw [Table.get?_erase_self] at he'
    cases he'
  · rw [Table.get?_erase_of_ne _ hj, Table.get?_insert_of_ne _ _ hj] at he'
    exact hs.loaded j e he'

theorem kept_keepRows (hs : s.session.Kept R K h) {vs : List Value}
    (hvs : (Entry.rows vs).Right R K h k) : (s.keepRows k vs).session.Kept R K h := by
  refine ⟨fun j e he => ?_, hs.outputs, hs.deferred⟩
  have he' : (s.session.loaded.insert k (.rows vs)).get? j = some e := he
  by_cases hj : j = k
  · subst hj
    rw [Table.get?_insert_self] at he'
    cases he'
    exact hvs
  · rw [Table.get?_insert_of_ne _ _ hj] at he'
    exact hs.loaded j e he'

/-- Keeping the parameter object of a procedure call keeps a record of existing objects. -/
theorem keepOutputs_eq (hsound : s.heap.Sound) (hs : s.session.Kept R K s.heap) (q : Query)
    (k : Key) :
    ∃ outputs, s.keepOutputs q k = { s with session := { s.session with outputs := outputs } } ∧
      ∀ j r, outputs.get? j = some r → r.Known s.heap := by
  have hsame : ∃ outputs, s = { s with session := { s.session with outputs := outputs } } ∧
      ∀ j r, outputs.get? j = some r → r.Known s.heap := ⟨_, rfl, hs.outputs⟩
  rw [keepOutputs]
  split
  · split
    · split
      · rename_i o _ _ r hr
        refine ⟨_, rfl, fun j q hq => ?_⟩
        by_cases hj : j = k
        · subst hj
          rw [Table.get?_insert_self] at hq
          cases hq
          exact hsound o _ hr
        · rw [Table.get?_insert_of_ne _ _ hj] at hq
          exact hs.outputs j q hq
      · exact hsame
    · exact hsame
  · exact hsame

/-- Writing kept parameters to an object outside the region. -/
theorem evolves_restore {o : ObjId} (ho : ¬ K o) {r : Record} (ps : List Parameter) (hh : h.Sound)
    (hr : r.Known h) : Heap.Evolves K h
      (ps.foldl (fun h p => h.write o p.name (.ofOption (r.get? p.name))) h) := by
  induction ps generalizing h with
  | nil => exact .refl hh
  | cons p ps ih =>
    have hwrite := hh.evolves_write ho (hr.get? p.name) p.name
    exact hwrite.trans (ih hwrite.sound (hr.mono hwrite.size_le))

/-- Restoring output parameters changes the parameter object at most. -/
theorem restoreOutputs_eq (ha : Asks answer R K st param w k s.heap)
    (hs : s.session.Kept R K s.heap) :
    ∃ h', s.restoreOutputs (.ofStatement st param w) k = s.withHeap h' ∧
      Heap.Evolves K s.heap h' := by
  have hsame : ∃ h', s = s.withHeap h' ∧ Heap.Evolves K s.heap h' :=
    ⟨s.heap, rfl, .refl ha.sound⟩
  rw [restoreOutputs]
  split
  · rename_i hcall
    split
    · rename_i r o hr ho
      refine ⟨_, rfl, ?_⟩
      cases hps : (Query.ofStatement st param w).binding.parameters.filter
          (·.direction ≠ .input) with
      | nil => exact .refl ha.sound
      | cons p ps =>
        have hset : Statement.setsParameters st.binding := by
          have hp : p ∈ st.binding.parameters.filter (·.direction ≠ .input) :=
            hps ▸ List.mem_cons_self
          obtain ⟨hmem, hdir⟩ := List.mem_filter.1 hp
          exact List.any_eq_true.2 ⟨p, hmem, hdir⟩
        exact evolves_restore (ha.free o ⟨hcall, hset, ho⟩) (p :: ps) ha.sound
          (hs.outputs k r hr)
    · exact hsame
  · exact hsame

/-- When no property waits, all that remains is to drop results that are kept for one query only. -/
theorem finish_right {s' : State τ} {reply : Reply} (hs : Serves R K k s reply s') :
    Serves R K k s (s'.finish reply).1 (s'.finish reply).2 := by
  rw [finish]
  cases hres : reply.result with
  | error f => exact ⟨hs.buffers, hs.depth, hs.pool, hs.evolves, hs.right, hs.kept.loaded,
      hs.kept.outputs, rfl⟩
  | ok vs =>
    have hdrain : s'.drain = (.ok (), s') := by
      obtain ⟨⟨_, _, _, deferred, _, _, _⟩, _⟩ := s'
      obtain rfl : deferred = [] := hs.kept.deferred
      rfl
    have hreply : reply = ⟨.ok vs, reply.handled⟩ := by
      obtain ⟨_, _⟩ := reply
      cases hres
      rfl
    have hsame : (⟨(Except.ok () : Result Unit).map fun _ => vs, reply.handled⟩ : Reply) = reply :=
      hreply.symm
    rw [hdrain]
    dsimp only
    rw [hsame]
    split
    · exact ⟨s'.session.buffers_clearLoaded.trans hs.buffers,
        s'.session.depth_clearLoaded.trans hs.depth, hs.pool, hs.evolves, hs.right,
        hs.kept.clearLoaded⟩
    · exact hs

variable (hD : D.Steady answer) (H : ComponentHash) (nested : Answering τ)
include hD

/-- Loading and keeping the rows. -/
theorem fetch_right (ha : Asks answer R K st param w k s.heap)
    (hs : s.session.Kept R K s.heap) :
    ∃ reply s', s.fetch (.plain H D) nested (.ofStatement st param w) k false = some (reply, s') ∧
      Serves R K k s reply s' := by
  obtain ⟨reply, h', t, hload, hev, hright⟩ := load_right hD H nested (s := s.mark k) ha
  have hregion := ha.region.of_evolves hev
  have hrefl : Heap.Evolves K h' h' := .refl hev.sound
  have hkept := (kept_unmark_mark hs k).of_evolves ha.region hev fun _ ho => ho
  have hkept' := hkept.of_evolves hregion hrefl
    fun o ho => Or.inl (b := reply.reached h' o) ho
  rw [fetch, hload]
  cases hres : reply.result with
  | error f =>
    refine ⟨reply, ⟨((s.mark k).unmark k).session, { s.world with heap := h', source := t }⟩, ?_,
      rfl, rfl, rfl, hev, hright, hkept'⟩
    simp only [Option.map_some, hres]
    rfl
  | ok vs =>
    let u : State τ := State.keepRows k vs
      ⟨((s.mark k).unmark k).session, { s.world with heap := h', source := t }⟩
    have hkeep : u.session.Kept R (fun o => K o ∨ reply.reached h' o) h' :=
      kept_keepRows hkept' (hright.entry hres)
    obtain ⟨outputs, hout, hknown⟩ :=
      keepOutputs_eq (s := u) hev.sound hkeep (.ofStatement st param w) k
    refine ⟨reply, { u with session := { u.session with outputs := outputs } }, ?_, rfl, rfl, rfl,
      hev, hright, ⟨hkeep.loaded, hknown, hkeep.deferred⟩⟩
    simp only [Option.map_some, hres]
    exact congrArg (fun v => some (reply, v)) hout

/-- Answering from the results that the session keeps, or loading them. -/
theorem lookup_right (ha : Asks answer R K st param w k s.heap)
    (hs : s.session.Kept R K s.heap) :
    ∃ reply s', s.lookup (.plain H D) nested (.ofStatement st param w) k false =
        some (reply, s') ∧ Serves R K k s reply s' := by
  rw [lookup, if_neg (by simp)]
  cases he : s.session.loaded.get? k with
  | none => exact fetch_right hD H nested ha hs
  | some e =>
    obtain ⟨fs, hfs, hstands⟩ := hs.loaded k e he
    cases hstands with
    | encoded hcoded => cases hcoded
    | @rows vs hvs hlen =>
      obtain ⟨h', hrestore, hev⟩ := restoreOutputs_eq ha hs
      have hregion := ha.region.of_evolves hev
      have hright : (Entry.rows vs).Right R K h' k :=
        Entry.Right.of_agreeOn ha.region hev.agree (fun _ ho => ho)
          ⟨_, hfs, .rows hvs hlen⟩
      refine ⟨.ofResult (.ok vs), s.withHeap h', ?_, rfl, rfl, rfl, hev, ?_, ?_⟩
      · simp only [Entry.results?, hrestore]
      · intro ws hws
        cases hws
        exact ⟨K, hregion, hright⟩
      · exact hs.of_evolves ha.region hev fun _ => .inl

/-- Answering without the shared caches. -/
theorem answerLocal_right (ha : Asks answer R K st param w k s.heap)
    (hs : s.session.Kept R K s.heap) (hdepth : s.session.depth = 0) :
    ∃ reply s', s.answerLocal (.plain H D) nested (.ofStatement st param w) k false =
        some (reply, s') ∧ Serves R K k s reply s' := by
  obtain ⟨u, hu, hkept, hbuffers, hdepth', hworld⟩ : ∃ u : State τ,
      (if s.session.depth = 0 && st.flushes then s.clearLoaded else s) = u ∧
        u.session.Kept R K s.heap ∧ u.session.buffers = s.session.buffers ∧
        u.session.depth = 0 ∧ u.world = s.world := by
    split
    · exact ⟨_, rfl, hs.clearLoaded, s.session.buffers_clearLoaded,
        s.session.depth_clearLoaded.trans hdepth, rfl⟩
    · exact ⟨_, rfl, hs, rfl, hdepth, rfl⟩
  have hheap : u.heap = s.heap := congrArg World.heap hworld
  have hask : Asks answer R K st param w k u.enter.heap := hheap ▸ ha
  have hkept' : u.session.Kept R K u.enter.heap := hheap ▸ hkept
  have henter : u.enter.session.Kept R K u.enter.heap :=
    ⟨hkept'.loaded, hkept'.outputs, hkept'.deferred⟩
  obtain ⟨reply, v, hlookup, hv⟩ := lookup_right hD H nested hask henter
  have hvdepth : v.session.depth = 1 := by
    have hd : v.session.depth = u.session.depth + 1 := hv.depth
    rw [hd, hdepth']
  have hleave : Serves R K k s reply v.leave := by
    refine ⟨hv.buffers.trans hbuffers, ?_, hv.pool.trans (congrArg World.pool hworld), ?_,
      hv.right, hv.kept.loaded, hv.kept.outputs, hv.kept.deferred⟩
    · change v.session.depth - 1 = s.session.depth
      rw [hvdepth, hdepth]
    · have hev : Heap.Evolves K u.heap v.heap := hv.evolves
      rw [hheap] at hev
      exact hev
  have hzero : ¬ 0 < v.leave.session.depth := by
    rw [hleave.depth, hdepth]
    exact Nat.lt_irrefl 0
  refine ⟨_, _, ?_, finish_right hleave⟩
  have hu' : (if s.session.depth = 0 && (Query.ofStatement st param w).statement.flushes then
      s.clearLoaded else s) = u := hu
  rw [answerLocal, hu']
  dsimp only
  rw [hlookup, Option.map_some]
  dsimp only
  rw [if_neg hzero]

end State

end ResultCache
