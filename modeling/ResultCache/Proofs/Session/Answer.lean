import ResultCache.Proofs.Session.Local

/-!
# Answers to queries

A query is answered with right rows, or with no rows for a key whose absence was published by
mistake, or with a fault; and it leaves the session, the shared caches and the heap as right as they
were (`State.Outcome`, `State.answerOnce_right`). A read of a shared cache that finds nothing leaves
the key waiting in the buffer (`State.readShared_right`); the local answer that follows ends that:
its rows are put, or the key is given up (`State.Serves.outcome_answered`).
-/
namespace ResultCache

variable {τ : Type} {R : Key → List Frozen → Prop} {K K' : ObjId → Prop} {h h' : Heap} {k : Key}

/-- Everything that a session keeps between two calls is right. -/
structure Session.Right (ids : CacheRef → String) (R : Key → List Frozen → Prop)
    (K : ObjId → Prop) (h : Heap) (s : Session) : Prop where
  kept : s.Kept R K h
  depth : s.depth = 0
  buffers : s.buffers.Settled ids R K h

theorem Session.Right.mono {ids : CacheRef → String} {S : Key → List Frozen → Prop} {s : Session}
    (hRS : ∀ k fs, R k fs → S k fs) (hs : s.Right ids R K h) : s.Right ids S K h :=
  ⟨hs.kept.mono hRS, hs.depth, hs.buffers.mono hRS⟩

theorem Session.Right.of_evolves {ids : CacheRef → String} {s : Session} (hK : h.Region K)
    (hh : Heap.Evolves K h h') (hKK' : ∀ o, K o → K' o) (hs : s.Right ids R K h) :
    s.Right ids R K' h' :=
  ⟨hs.kept.of_evolves hK hh hKK', hs.depth, hs.buffers.of_agreeOn hK hh.agree hKK'⟩

namespace State

/-- What is known of any answer: it is right, or empty because the key was `lost`; and what the
session and the shared caches hold is right afterwards. -/
structure Outcome (ids : CacheRef → String) (R : Key → List Frozen → Prop)
    (L : CacheRef → Key → Prop) (K : ObjId → Prop) (k : Key) (lost : Prop) (h : Heap)
    (reply : Reply) (s' : State τ) : Prop where
  evolves : Heap.Evolves K h s'.heap
  region : s'.heap.Region (reply.reached s'.heap)
  answer : ∀ vs, reply.result = .ok vs → R k (vs.map s'.heap.freeze) ∨ (vs = [] ∧ lost)
  session : s'.session.Right ids R (fun o => K o ∨ reply.reached s'.heap o) s'.heap
  pool : s'.world.pool.Right ids R L (fun o => K o ∨ reply.reached s'.heap o) s'.heap

variable {ids : CacheRef → String} {L : CacheRef → Key → Prop} {answer : Answer}
  {D : DataSource τ} {st : Statement} {param : Value} {w : Window} {s : State τ} {lost : Prop}

/-- Right rows answer right. -/
theorem freeze_of_right {reply : Reply} (hr : reply.Right R k h) {vs : List Value}
    (hvs : reply.result = .ok vs) : R k (vs.map h.freeze) := by
  obtain ⟨M, -, fs, hfs, hstands⟩ := hr vs hvs
  cases hstands
  exact hfs

/-- A fault leaves everything as it was. -/
theorem Outcome.error {reply : Reply} {f : Fault} (hf : reply.result = .error f)
    (hev : Heap.Evolves K h s.heap) (hsession : s.session.Right ids R K s.heap)
    (hpool : s.world.pool.Right ids R L K s.heap) (hK : s.heap.Region K) :
    Outcome ids R L K k lost h reply s := by
  have hrefl : Heap.Evolves K s.heap s.heap := .refl hev.sound
  refine ⟨hev, fun o ho => absurd ho (Reply.not_reached_of_error hf), fun vs hvs => ?_,
    hsession.of_evolves hK hrefl fun _ => .inl,
    hpool.of_agreeOn hK (fun _ _ => rfl) fun _ => .inl⟩
  rw [hf] at hvs
  cases hvs

/-- An answer that does not touch the shared caches. -/
theorem Serves.outcome {reply : Reply} {s' : State τ} (hserves : Serves R K k s reply s')
    (hs : s.session.Right ids R K s.heap) (hp : s.world.pool.Right ids R L K s.heap)
    (hK : s.heap.Region K) : Outcome ids R L K k lost s.heap reply s' := by
  refine ⟨hserves.evolves, hserves.right.region,
    fun vs hvs => .inl (freeze_of_right hserves.right hvs), ⟨hserves.kept, ?_, ?_⟩, ?_⟩
  · exact hserves.depth.trans hs.depth
  · rw [hserves.buffers]
    exact hs.buffers.of_agreeOn hK hserves.evolves.agree fun _ => .inl
  · rw [hserves.pool]
    exact hp.of_agreeOn hK hserves.evolves.agree fun _ => .inl

/-- What is reached from rows in a region is a region. -/
theorem region_reached {M : ObjId → Prop} (hM : h.Region M) {vs : List Value}
    (hvs : ∀ v ∈ vs, v.Within M) : h.Region ((Reply.ofResult (.ok vs)).reached h) := by
  have hreach : h.Region (h.Reaches (Heap.named vs)) := by
    refine hM.reaches fun o ho => ?_
    obtain ⟨v, hv, hr⟩ := ho
    exact (hvs v hv).of_refers hr
  intro o ho
  obtain ⟨r, hr, hw⟩ := hreach o ((Reply.reached_of_ok rfl).1 ho)
  exact ⟨r, hr, hw.mono fun q hq => (Reply.reached_of_ok rfl).2 hq⟩

/-- What is known of a read of a shared cache. The key is waiting if it was not found. -/
structure Reads (ids : CacheRef → String) (R : Key → List Frozen → Prop)
    (L : CacheRef → Key → Prop) (K : ObjId → Prop) (r : CacheRef) (k : Key) (s : State τ)
    (res : Result (Option Entry)) (s' : State τ) : Prop where
  grows : s.heap.Grows s'.heap
  evolves : Heap.Evolves K s.heap s'.heap
  region : s'.heap.Region (s.heap.Fresh s'.heap)
  stands : ∀ e, res = .ok (some e) →
    ∃ c, Contents.right R (L (s.session.buffers.target s.world.pool r)) k c ∧
      e.Stands false (fun o => K o ∨ s.heap.Fresh s'.heap o) s'.heap c
  kept : s'.session.Kept R K s'.heap
  depth : s'.session.depth = 0
  buffers : s'.session.buffers.Right ids R K s'.heap fun id j =>
    res = .ok none ∧ Buffers.waitingFor (ids r) k id j
  pool : s'.world.pool.Right ids R L K s'.heap

theorem Reads.settled {r : CacheRef} {res : Result (Option Entry)} {s' : State τ}
    (hr : Reads ids R L K r k s res s') (hres : res ≠ .ok none) :
    s'.session.buffers.Settled ids R K s'.heap :=
  hr.buffers.wait fun _ _ hw => hres hw.1

theorem readShared_right (hsound : s.heap.Sound) (hK : s.heap.Region K)
    (hs : s.session.Right ids R K s.heap) (hp : s.world.pool.Right ids R L K s.heap) (r : CacheRef)
    (k : Key) : Reads ids R L K r k s (s.readShared r k).1 (s.readShared r k).2 := by
  obtain ⟨hanswers, hbuffers, hpool⟩ := hs.buffers.get hp hK s.world.now r k
  have hsound' := hanswers.grows.sound hanswers.region hsound
  have hev := hanswers.grows.evolves hK hsound'
  have hkept := hs.kept.of_evolves hK hev fun _ ho => ho
  exact ⟨hanswers.grows, hev, hanswers.region, hanswers.stands,
    ⟨hkept.loaded, hkept.outputs, hkept.deferred⟩, hs.depth,
    hbuffers.of_agreeOn hK hev.agree fun _ ho => ho,
    hpool.of_agreeOn hK hev.agree fun _ ho => ho⟩

/-- An entry that a shared cache answers with. -/
theorem Outcome.hit {r : CacheRef} {e : Entry} {c : Content} {M : ObjId → Prop}
    (hc : Contents.right R (L r) k c) (he : e.Stands false M s.heap c) (hM : s.heap.Region M)
    (hev : Heap.Evolves K h s.heap) (hsession : s.session.Right ids R K s.heap)
    (hpool : s.world.pool.Right ids R L K s.heap) (hK : s.heap.Region K) :
    ∃ vs, e.results? = some vs ∧ Outcome ids R L K k (L r k) h (.ofResult (.ok vs)) s := by
  obtain ⟨vs, hres, hvs, hanswer⟩ : ∃ vs, e.results? = some vs ∧ (∀ v ∈ vs, v.Within M) ∧
      (R k (vs.map s.heap.freeze) ∨ (vs = [] ∧ L r k)) := by
    rcases hc with ⟨fs, hfs, rfl⟩ | ⟨rfl, hlost⟩
    · cases he with
      | encoded hcoded => cases hcoded
      | rows hw hlen => exact ⟨_, rfl, hw, .inl hfs⟩
    · cases he
      exact ⟨[], rfl, fun _ hv => (by cases hv), .inr ⟨rfl, hlost⟩⟩
  refine ⟨vs, hres, hev, region_reached hM hvs, fun ws hws => ?_,
    hsession.of_evolves hK (.refl hev.sound) fun _ => .inl,
    hpool.of_agreeOn hK (fun _ _ => rfl) fun _ => .inl⟩
  cases hws
  exact hanswer

/-- What is done with a local answer for a key that a shared cache did not have. -/
def answered (r : CacheRef) (k : Key) (reply : Reply) (s : State τ) : State τ :=
  match reply.result with
  | .ok vs => s.putShared r k (.rows vs)
  | .error _ => s.releaseShared r k

/-- A local answer ends the waiting for its key: its rows are put, or the key is given up. -/
theorem Serves.outcome_answered {r : CacheRef} {reply : Reply} {s' : State τ}
    (hserves : Serves R K k s reply s')
    (hbs : s.session.buffers.Right ids R K s.heap (Buffers.waitingFor (ids r) k))
    (hp : s.world.pool.Right ids R L K s.heap) (hK : s.heap.Region K)
    (hdepth : s.session.depth = 0) (hev : Heap.Evolves K h s.heap) :
    Outcome ids R L K k lost h reply (answered r k reply s') := by
  have hregion := (hK.of_evolves hserves.evolves).or hserves.right.region
  have hdepth' : s'.session.depth = 0 := hserves.depth.trans hdepth
  have hbuffers : s'.session.buffers.Right ids R (fun o => K o ∨ reply.reached s'.heap o) s'.heap
      (Buffers.waitingFor (ids r) k) := by
    rw [hserves.buffers]
    exact hbs.of_agreeOn hK hserves.evolves.agree fun _ => .inl
  have hpool : s'.world.pool.Right ids R L (fun o => K o ∨ reply.reached s'.heap o) s'.heap := by
    rw [hserves.pool]
    exact hp.of_agreeOn hK hserves.evolves.agree fun _ => .inl
  have hkept := hserves.kept
  rw [answered]
  cases hres : reply.result with
  | error f =>
    obtain ⟨hreleased, hpool'⟩ := hbuffers.release hpool hregion s'.world.now
    exact ⟨hev.trans hserves.evolves, hserves.right.region,
      fun vs hvs => .inl (freeze_of_right hserves.right hvs),
      ⟨⟨hkept.loaded, hkept.outputs, hkept.deferred⟩, hdepth', hreleased⟩, hpool'⟩
  | ok vs =>
    have hput := hbuffers.put hpool (hserves.right.entry hres)
    exact ⟨hev.trans hserves.evolves, hserves.right.region,
      fun vs hvs => .inl (freeze_of_right hserves.right hvs),
      ⟨⟨hkept.loaded, hkept.outputs, hkept.deferred⟩, hdepth', hput⟩, hpool⟩

theorem Outcome.imp {lost' : Prop} {reply : Reply} {s' : State τ} (hl : lost → lost')
    (ho : Outcome ids R L K k lost h reply s') : Outcome ids R L K k lost' h reply s' :=
  ⟨ho.evolves, ho.region, fun vs hvs => (ho.answer vs hvs).imp_right (And.imp_right hl),
    ho.session, ho.pool⟩

/-- A flush changes buffers only, and no cache is used in the place of another. -/
theorem flush_eq (hs : s.session.Right ids R K s.heap) (hp : s.world.pool.Right ids R L K s.heap)
    (st : Statement) :
    ∃ bs, s.flush st = { s with session := { s.session with buffers := bs } } ∧
      bs.Settled ids R K s.heap ∧ ∀ r, s.session.sharedCache st = some r →
        bs.target s.world.pool r = s.session.buffers.target s.world.pool r := by
  rw [flush]
  cases hshared : s.session.sharedCache st with
  | none => exact ⟨_, rfl, hs.buffers, fun _ hr => (by cases hr)⟩
  | some r =>
    dsimp only
    split
    · refine ⟨_, rfl, hs.buffers.clear hp r, fun q hq => ?_⟩
      cases hq
      exact Buffers.target_clear s.session.buffers s.world.pool r
    · exact ⟨_, rfl, hs.buffers, fun _ _ => rfl⟩

variable (hD : D.Steady answer) (H : ComponentHash) (nested : Answering τ)
include hD

/-- Answering from a shared cache, or loading the rows and buffering them for the cache. -/
theorem answerShared_right (ha : Asks answer R K st param w k s.heap)
    (hs : s.session.Right ids R K s.heap) (hp : s.world.pool.Right ids R L K s.heap) (r : CacheRef) :
    ∃ reply s', s.answerShared (.plain H D) nested r (.ofStatement st param w) k =
        some (reply, s') ∧
      Outcome ids R L K k (L (s.session.buffers.target s.world.pool r) k) s.heap reply s' := by
  rw [answerShared]
  split
  · exact ⟨_, _, rfl, .error rfl (.refl ha.sound) hs hp ha.region⟩
  · have hread := readShared_right ha.sound ha.region hs hp r k
    rcases hx : s.readShared r k with ⟨f | _ | e, s₁⟩
    · rw [hx] at hread
      have hs₁ := hread.settled (by simp)
      exact ⟨_, s₁, rfl, .error rfl hread.evolves ⟨hread.kept, hread.depth, hs₁⟩ hread.pool
        (ha.region.of_evolves hread.evolves)⟩
    · rw [hx] at hread
      have hregion := ha.region.of_evolves hread.evolves
      obtain ⟨reply, s₂, hlocal, hserves⟩ := answerLocal_right hD H nested
        (ha.of_grows hread.grows hread.evolves.sound) hread.kept hread.depth
      refine ⟨reply, answered r k reply s₂, ?_, hserves.outcome_answered
        (hread.buffers.wait fun _ _ hw => hw.2) hread.pool hregion hread.depth hread.evolves⟩
      dsimp only
      rw [Option.bind_none]
      dsimp only
      rw [hlocal, Option.map_some, answered]
      dsimp only
      cases reply.result <;> rfl
    · rw [hx] at hread
      have hregion := ha.region.of_evolves hread.evolves
      obtain ⟨c, hc, hec⟩ := hread.stands e rfl
      have hs₁ := hread.settled (by simp)
      obtain ⟨vs, hres, hhit⟩ := Outcome.hit hc hec (hregion.or hread.region) hread.evolves
        ⟨hread.kept, hread.depth, hs₁⟩ hread.pool hregion
      refine ⟨_, s₁, ?_, hhit⟩
      dsimp only
      rw [Option.bind_some, hres]

/-- Answering a query under its key. -/
theorem answerOnce_right (ha : Asks answer R K st param w k s.heap)
    (hs : s.session.Right ids R K s.heap) (hp : s.world.pool.Right ids R L K s.heap) :
    ∃ reply s', s.answerOnce (.plain H D) nested (.ofStatement st param w) k false =
        some (reply, s') ∧
      Outcome ids R L K k
        (∃ r, st.cache = some r ∧ L (s.session.buffers.target s.world.pool r) k) s.heap reply s' := by
  rw [answerOnce]
  split
  · exact ⟨_, s, rfl, .error rfl (.refl ha.sound) hs hp ha.region⟩
  · have hshared : (Query.ofStatement st param w).statement = st := rfl
    rw [hshared]
    obtain ⟨bs, hflush, hbs, htarget⟩ := flush_eq hs hp st
    cases hcache : s.session.sharedCache st with
    | none =>
      obtain ⟨reply, s', hlocal, hserves⟩ := answerLocal_right hD H nested ha hs.kept hs.depth
      exact ⟨reply, s', hlocal, hserves.outcome hs hp ha.region⟩
    | some r =>
      dsimp only
      rw [hflush]
      have hkept : Session.Kept R K s.heap { s.session with buffers := bs } :=
        ⟨hs.kept.loaded, hs.kept.outputs, hs.kept.deferred⟩
      let u : State τ := { s with session := { s.session with buffers := bs } }
      have hu : u.session.Right ids R K u.heap := ⟨hkept, hs.depth, hbs⟩
      split
      · obtain ⟨reply, s', hlocal, hserves⟩ :=
          answerLocal_right hD H nested (s := u) ha hkept hs.depth
        exact ⟨reply, s', hlocal, hserves.outcome hu hp ha.region⟩
      · obtain ⟨reply, s', hanswer, hright⟩ :=
          answerShared_right hD H nested (s := u) ha hu hp r
        refine ⟨reply, s', hanswer, hright.imp fun hl => ⟨r, ?_, ?_⟩⟩
        · rw [Session.sharedCache] at hcache
          split at hcache
          · exact hcache
          · cases hcache
        · rw [← htarget r hcache]
          exact hl

/-- Answering a query from outside, under the key that it has in the session. -/
theorem perform_query_right (limit : Nat) (hs : s.session.Right ids R K s.heap)
    (ha : Asks answer R K st param w
      (Session.keyOf H s.heap s.session.config (.ofStatement st param w)) s.heap)
    (hp : s.world.pool.Right ids R L K s.heap) :
    ∃ reply s', (Env.plain H D).perform (limit + 1)
        (.query (.ofStatement st param w) none false) s = some (reply, s') ∧
      Outcome ids R L K (Session.keyOf H s.heap s.session.config (.ofStatement st param w))
        (∃ r, st.cache = some r ∧ L (s.session.buffers.target s.world.pool r)
          (Session.keyOf H s.heap s.session.config (.ofStatement st param w))) s.heap reply s' := by
  rw [Env.perform, Call.run, key]
  cases hopen : s.session.ensureOpen with
  | error f => exact ⟨_, s, rfl, .error rfl (.refl ha.sound) hs hp ha.region⟩
  | ok _ => exact answerOnce_right hD H _ ha hs hp

end State

end ResultCache
