import ResultCache.Proofs.Session.Log
import ResultCache.Proofs.Session.Traffic

/-!
# Where rows come from

A log accounts for all rows in reach of a session (`State.Accounted`). What the session holds itself
it loaded since it last changed data and since its unit of work began. What one of its buffers has
it loaded since then too, but for changes that flush other caches. What a shared cache has was there
from the start or was published, and so was an absence if only sessions write to shared caches. And
every query was answered with rows that its session had loaded itself, or with what a shared cache
had. Every move of the session keeps that (`accounted_follows`).
-/
namespace ResultCache

/-- The buffer in front of a cache is kept under its name, or nothing is there yet. -/
theorem Buffers.front_cases (bs : Buffers) (id : String) (r : CacheRef) :
    bs.front id r = .empty ∨ bs.byId.get? id = some (r, bs.front id r) := by
  rw [front]
  cases hb : bs.byId.get? id with
  | none => exact .inl rfl
  | some e =>
    obtain ⟨q, b⟩ := e
    dsimp only
    split
    · rename_i hq
      subst hq
      exact .inr rfl
    · exact .inl rfl

/-- What the buffer in front of a cache has, the buffers have. -/
theorem Buffers.writes_of_front {bs : Buffers} {id : String} {r : CacheRef} {k : Key}
    {vs : List Value} (h : (bs.front id r).pending.get? k = some (.rows vs)) :
    bs.Writes r k vs := by
  obtain hempty | hfront := bs.front_cases id r
  · rw [hempty] at h
    cases h
  · exact ⟨id, _, hfront, h⟩

/-- What the buffer in front of a cache missed and has no rows for, the buffers deny. -/
theorem Buffers.denies_of_front {bs : Buffers} {id : String} {r : CacheRef} {k : Key}
    (hmissed : k ∈ (bs.front id r).missed) (hnone : (bs.front id r).pending.get? k = none) :
    bs.Denies r k := by
  obtain hempty | hfront := bs.front_cases id r
  · rw [hempty] at hmissed
    cases hmissed
  · exact ⟨id, _, hfront, hmissed, hnone⟩

variable {G : Start} {r : CacheRef} {l : List Happening} {L : Log} {i : Nat}

/-- What happened accounts for a buffer in front of a shared cache. -/
structure Buffer.Accounted (r : CacheRef) (l : List Happening) (b : Buffer) : Prop where
  pending : ∀ k e, b.pending.get? k = some e →
    ∃ vs h, e = .rows vs ∧ ReturnedSince (·.Upsets r) l k vs h
  clearing : Clears r l → b.clearing = true

namespace Buffer.Accounted

variable {b : Buffer} {e : Happening}

theorem of_eq {c : Buffer} (hb : b.Accounted r l) (hpending : c.pending = b.pending)
    (hclearing : c.clearing = b.clearing) : c.Accounted r l := by
  refine ⟨fun k e he => ?_, fun hc => hclearing.trans (hb.clearing hc)⟩
  rw [hpending] at he
  exact hb.pending k e he

theorem cons (hb : b.Accounted r l) (he : ¬ e.Upsets r) : b.Accounted r (e :: l) := by
  refine ⟨fun k x hx => ?_, fun hc => ?_⟩
  · obtain ⟨vs, h, rfl, hvs⟩ := hb.pending k x hx
    exact ⟨vs, h, rfl, hvs.cons he⟩
  · obtain hupdates | ⟨-, hc⟩ := clears_cons.1 hc
    · exact absurd (.inr hupdates) he
    · exact hb.clearing hc

/-- A buffer that is to clear its cache holds nothing yet. -/
theorem clear (b : Buffer) (l : List Happening) : b.clear.Accounted r l :=
  ⟨fun _ _ hx => (by cases hx), fun _ => rfl⟩

theorem put {k : Key} {vs : List Value} {h : Heap} (hb : b.Accounted r l)
    (hvs : ReturnedSince (·.Upsets r) l k vs h) : (b.put k (.rows vs)).Accounted r l := by
  refine ⟨fun j x hx => ?_, hb.clearing⟩
  by_cases hj : j = k
  · subst hj
    rw [Buffer.put, Table.get?_insert_self] at hx
    exact ⟨vs, h, (Option.some.inj hx).symm, hvs⟩
  · rw [Buffer.put, Table.get?_insert_of_ne _ _ hj] at hx
    exact hb.pending j x hx

/-- After the end of a unit of work its buffers are empty. -/
theorem ended (he : e.ends = true) : Buffer.empty.Accounted r (e :: l) := by
  refine ⟨fun _ _ hx => (by cases hx), fun hc => ?_⟩
  obtain rfl | ⟨hnot, -⟩ := clears_cons.1 hc
  · cases he
  · rw [he] at hnot
    cases hnot

end Buffer.Accounted

/-- The log accounts for what is in a shared cache. -/
structure Cache.Accounted (G : Start) (r : CacheRef) (L : Log) (c : Cache) : Prop where
  layers : c.layers = G.layers r
  stored : ∀ k e, c.store.entries.get? k = some e → e.bearsRows = true ∨ G.closed →
    G.Stocked r k L e

theorem Cache.Accounted.cons {c : Cache} (hc : c.Accounted G r L) {a : Nat × Happening}
    (ha : G.Spares r a L) : c.Accounted G r (a :: L) :=
  ⟨hc.layers, fun k e he hcounts => .kept (hc.stored k e he hcounts) ha⟩

namespace WorkCall

theorem pending_get (now : Instant) (h : Heap) (k : Key) (m : Buffer × Cache) :
    ((WorkCall.get now h k).run Cache.ops m).1.pending = m.1.pending ∧
      ((WorkCall.get now h k).run Cache.ops m).1.clearing = m.1.clearing := by
  have hmiss : ∀ b : Buffer, (b.miss k).pending = b.pending ∧ (b.miss k).clearing = b.clearing := by
    intro b
    rw [Buffer.miss]
    split <;> exact ⟨rfl, rfl⟩
  rw [run, Buffer.get]
  split
  · exact ⟨rfl, rfl⟩
  · split
    · exact ⟨rfl, rfl⟩
    · split
      · exact ⟨rfl, rfl⟩
      · exact hmiss m.1
      · exact ⟨rfl, rfl⟩

theorem pending_release (now : Instant) (h : Heap) (k : Key) (m : Buffer × Cache) :
    ((WorkCall.release now h k).run Cache.ops m).1.pending = m.1.pending ∧
      ((WorkCall.release now h k).run Cache.ops m).1.clearing = m.1.clearing := by
  rw [run, Buffer.release]
  split <;> exact ⟨rfl, rfl⟩

/-- What a call leaves in the store of a cache was there, or it is a commit that wrote it. -/
theorem stored_run {c : WorkCall} {m : Buffer × Cache} {k : Key} {e : Entry}
    (hs : (c.run Cache.ops m).2.store.entries.get? k = some e) :
    (m.2.store.entries.get? k = some e ∧ ∀ now h w, c = .commit now h w → m.1.clearing = false) ∨
    ∃ now h w x, c = .commit now h w ∧ (k, x) ∈ m.1.writes ∧
      e = x.kept (storesCoded false m.2.layers) h := by
  obtain ⟨b, ls, x⟩ := m
  rw [run_cache] at hs
  exact (stocks_stackOps ls).run (m := (b, x)) hs

/-- What is read through a buffer is in the buffer or in the store of the cache. -/
theorem read_cache {now : Instant} {h : Heap} {k : Key} {b : Buffer} {c : Cache} {e : Entry}
    (hs : (Buffer.get Cache.ops now h k b c).1 = .ok (some e)) :
    b.pending.get? k = some e ∨ (b.pending.get? k = none ∧
      ∃ e', c.store.entries.get? k = some e' ∧
        e'.Shows e (Buffer.get Cache.ops now h k b c).2.1) := by
  obtain ⟨ls, x⟩ := c
  rw [get_cache] at hs ⊢
  exact (stocks_stackOps ls).read hs

theorem layers_run (c : WorkCall) (m : Buffer × Cache) :
    (c.run Cache.ops m).2.layers = m.2.layers := by
  obtain ⟨b, ls, x⟩ := m
  rw [run_cache]

end WorkCall

/-- A call that is no commit adds nothing to a cache. -/
theorem Cache.Accounted.run {m : Buffer × Cache} (hm : m.2.Accounted G r L) {c : WorkCall}
    (hc : ∀ now h w, c ≠ .commit now h w) : (c.run Cache.ops m).2.Accounted G r L := by
  refine ⟨(c.layers_run m).trans hm.layers, fun k e he hcounts => ?_⟩
  obtain ⟨hbefore, -⟩ | ⟨now, h, w, _, heq, -⟩ := WorkCall.stored_run he
  · exact hm.stored k e hbefore hcounts
  · exact absurd heq (hc now h w)

/-- A commit adds what the buffer writes, and leaves nothing else if it is due to clear the cache. -/
theorem Cache.Accounted.commit {m : Buffer × Cache} (hm : m.2.Accounted G r L)
    (hb : m.1.Accounted r (G.of L i)) {bs : Buffers}
    (hwrites : ∀ k vs, m.1.pending.get? k = some (.rows vs) → bs.Writes r k vs)
    (hdenies : ∀ k, k ∈ m.1.missed → m.1.pending.get? k = none → bs.Denies r k) (now : Instant)
    (h : Heap) (w : Buffer.Walk) :
    ((WorkCall.commit now h w).run Cache.ops m).2.Accounted G r ((i, .publishes bs h) :: L) := by
  refine ⟨(WorkCall.layers_run _ m).trans hm.layers, fun k e he hcounts => ?_⟩
  obtain ⟨hbefore, hclearing⟩ | ⟨_, _, _, x, heq, hx, rfl⟩ := WorkCall.stored_run he
  · refine .kept (hm.stored k e hbefore hcounts) fun _ _ _ hclears => ?_
    rw [hb.clearing hclears] at hclearing
    cases hclearing now h w rfl
  · cases heq
    obtain hpending | ⟨hnone, hmissed, rfl⟩ := Buffer.pair_mem_writes.1 hx
    · obtain ⟨vs, h₁, rfl, hvs⟩ := hb.pending k x hpending
      rw [hm.layers]
      exact .published ⟨i, bs, vs, h₁, h⟩ ⟨hwrites k vs hpending, hvs⟩
    · exact .denied (hdenies k hmissed hnone)

/-- What a session holds itself was loaded in this unit of work, and since data last changed. -/
def Session.Accounted (l : List Happening) (s : Session) : Prop :=
  ∀ k e, s.loaded.get? k = some e →
    e = .loading ∨ ∃ vs, e = .rows vs ∧ LoadedSince Happening.UpsetsAny l k vs

/-- The log accounts for all rows in reach of a session. -/
structure State.Accounted {τ : Type} (G : Start) (i : Nat) (L : Log) (s : State τ) : Prop where
  named : s.Named G.ids
  session : s.session.Accounted (G.of L i)
  buffers : ∀ r, (s.unit G.ids r).1.Accounted r (G.of L i)
  caches : ∀ r, (s.unit G.ids r).2.Accounted G r L
  answered : G.Answered L

variable {τ : Type} {s t : State τ} {k : Key} {vs : List Value}

theorem Session.Accounted.cons {u : Session} (hu : u.Accounted l) {e : Happening}
    (he : ¬ e.UpsetsAny) : u.Accounted (e :: l) := by
  intro k x hx
  obtain hloading | ⟨vs, rfl, hvs⟩ := hu k x hx
  · exact .inl hloading
  · exact .inr ⟨vs, rfl, hvs.cons he⟩

/-- Who is shown rows is shown them by an entry that has rows. -/
theorem Entry.Shows.bearsRows {e : Entry} {ws : List Value} {h : Heap}
    (hshows : e.Shows (.rows ws) h) : e.bearsRows = true := by
  generalize hx : Entry.rows ws = x at hshows
  cases hshows with
  | same =>
    subst hx
    rfl
  | copied _ he _ =>
    rw [he]
    rfl

/-- Who is shown an absence is shown what is there. -/
theorem Entry.Shows.eq_absence {e : Entry} {h : Heap} (hshows : e.Shows .absence h) :
    e = .absence := by
  generalize hx : Entry.absence = x at hshows
  cases hshows with
  | same => rfl
  | copied => cases hx

namespace State.Accounted

/-- The session holds no more results, and nothing has changed of its buffers and of the caches. -/
theorem of_loaded (hs : s.Accounted G i L)
    (hloaded : ∀ k e, t.session.loaded.get? k = some e →
      e = .loading ∨ s.session.loaded.get? k = some e)
    (hbuffers : t.session.buffers = s.session.buffers) (hpool : t.world.pool = s.world.pool) :
    t.Accounted G i L := by
  have hunit : ∀ r, t.unit G.ids r = s.unit G.ids r := fun r => by
    rw [unit, unit, hbuffers, hpool]
  refine ⟨⟨?_, ?_⟩, fun k e he => ?_, fun r => ?_, fun r => ?_, hs.answered⟩
  · rw [hpool]
    exact hs.named.pool
  · rw [hbuffers]
    exact hs.named.buffers
  · exact (hloaded k e he).elim .inl (hs.session k e)
  · rw [hunit]
    exact hs.buffers r
  · rw [hunit]
    exact hs.caches r

theorem of_eq (hs : s.Accounted G i L) (hloaded : t.session.loaded = s.session.loaded)
    (hbuffers : t.session.buffers = s.session.buffers) (hpool : t.world.pool = s.world.pool) :
    t.Accounted G i L := by
  refine hs.of_loaded (fun k e he => .inr ?_) hbuffers hpool
  rw [hloaded] at he
  exact he

theorem of_bare (hs : s.Accounted G i L) (hbare : t.session.Bare)
    (hbuffers : t.session.buffers = s.session.buffers) (hpool : t.world.pool = s.world.pool) :
    t.Accounted G i L := by
  refine hs.of_loaded (fun k e he => ?_) hbuffers hpool
  rw [hbare.loaded] at he
  cases he

theorem clearLoaded (hs : s.Accounted G i L) : s.clearLoaded.Accounted G i L :=
  hs.of_loaded (fun _ _ he => .inr (get?_clearLoaded he)) s.session.buffers_clearLoaded rfl

theorem finish (hs : s.Accounted G i L) (reply : Reply) :
    (s.finish reply).2.Accounted G i L := by
  refine hs.of_loaded (fun _ _ he => .inr (get?_finish he)) ?_ ?_
  · cases hreply : reply.result with
    | error f => rw [finish_error hreply]
    | ok vs =>
      rw [finish_ok hreply]
      dsimp only
      split
      · exact s.drain.2.session.buffers_clearLoaded
      · rfl
  · cases hreply : reply.result with
    | error f => rw [finish_error hreply]
    | ok vs =>
      rw [finish_ok hreply]
      dsimp only
      split <;> rfl

/-- Something happened that ends no unit of work and changes no data. -/
theorem cons (hs : s.Accounted G i L) {e : Happening} (he : ¬ e.UpsetsAny)
    (hanswered : G.Answered ((i, e) :: L)) : s.Accounted G i ((i, e) :: L) := by
  refine ⟨hs.named, ?_, fun r => ?_, fun r => (hs.caches r).cons fun bs h heq => ?_, hanswered⟩
  · rw [Start.of_cons_self]
    exact hs.session.cons he
  · rw [Start.of_cons_self]
    exact (hs.buffers r).cons fun hr => he ⟨r, hr⟩
  · obtain rfl : e = .publishes bs h := heq
    exact absurd ⟨r, .inl rfl⟩ he

/-- After a call on one buffer that is no commit. -/
theorem calls (hs : s.Accounted G i L) {c : WorkCall} {q : CacheRef} (h : s.Calls c q t)
    (hloaded : t.session.loaded = s.session.loaded) (hc : ∀ now h w, c ≠ .commit now h w)
    (hbuffer : ∀ r, (s.session.buffers.find s.world.pool q).1 = r →
      (c.run Cache.ops (s.unit G.ids r)).1.Accounted r (G.of L i)) : t.Accounted G i L := by
  refine ⟨h.named hs.named, fun k e he => ?_, fun r => ?_, fun r => ?_, hs.answered⟩
  · rw [hloaded] at he
    exact hs.session k e he
  · rw [h.unit hs.named r]
    split
    · exact hbuffer r ‹_›
    · exact hs.buffers r
  · rw [h.unit hs.named r]
    split
    · exact (hs.caches r).run hc
    · exact hs.caches r

theorem clear (hs : s.Accounted G i L) (q : CacheRef) :
    ({ s with session := { s.session with
      buffers := s.session.buffers.clear q s.world.pool } } : State τ).Accounted G i L :=
  hs.calls (calls_clear q s) rfl (by simp) fun _ _ => .clear _ _

theorem flush (hs : s.Accounted G i L) (st : Statement) : (s.flush st).Accounted G i L := by
  rw [State.flush]
  split
  · split
    · exact hs.clear _
    · exact hs
  · exact hs

theorem read (hs : s.Accounted G i L) (q : CacheRef) (k : Key) :
    (s.readShared q k).2.Accounted G i L := by
  refine hs.calls (calls_get q k s) rfl (by simp) fun r _ => ?_
  obtain ⟨hpending, hclearing⟩ := WorkCall.pending_get s.world.now s.world.heap k (s.unit G.ids r)
  exact (hs.buffers r).of_eq hpending hclearing

theorem release (hs : s.Accounted G i L) (q : CacheRef) (k : Key) :
    (s.releaseShared q k).Accounted G i L := by
  refine hs.calls (calls_release q k s) rfl (by simp) fun r _ => ?_
  obtain ⟨hpending, hclearing⟩ :=
    WorkCall.pending_release s.world.now s.world.heap k (s.unit G.ids r)
  exact (hs.buffers r).of_eq hpending hclearing

theorem put {h : Heap} (hs : s.Accounted G i L) (q : CacheRef)
    (hvs : ReturnedSince Happening.UpsetsAny (G.of L i) k vs h) :
    (s.putShared q k (.rows vs)).Accounted G i L :=
  hs.calls (calls_put q k _ s) rfl (by simp) fun r _ =>
    (hs.buffers r).put (hvs.mono fun _ he => ⟨r, he⟩)

/-- What a read through the buffers finds is rows that the session loaded in this unit of work, or
what the shared cache has. -/
theorem served (hs : s.Accounted G i L) {q : CacheRef} {e : Entry}
    (hread : (s.readShared q k).1 = .ok (some e)) (hvs : e.results? = some vs) :
    (s.readShared q k).2.Accounted G i
      ((i, .answers k (s.server q k) vs (s.readShared q k).2.heap) :: L) := by
  refine (hs.read q k).cons (Happening.not_upsetsAny rfl (by simp)) ?_
  have hfront := Buffers.front_find hs.named.buffers hs.named.pool
    (rfl : (s.session.buffers.find s.world.pool q).1 = _)
  have hbuffer := hs.buffers (s.session.buffers.find s.world.pool q).1
  have hcache := hs.caches (s.session.buffers.find s.world.pool q).1
  rw [State.unit, hfront] at hbuffer hcache
  rw [State.server]
  generalize hx : s.session.buffers.find s.world.pool q = x at hbuffer hcache ⊢
  obtain ⟨target, b⟩ := x
  have hget : (Buffer.get Cache.ops s.world.now s.world.heap k b (s.world.pool.get target)).1 =
      .ok (some e) := by
    change (s.session.buffers.get s.world.now s.world.heap q k s.world.pool).1 = _ at hread
    rw [Buffers.get, hx] at hread
    exact hread
  have hheap : (s.readShared q k).2.heap =
      (Buffer.get Cache.ops s.world.now s.world.heap k b (s.world.pool.get target)).2.1 := by
    change (s.session.buffers.get s.world.now s.world.heap q k s.world.pool).2.1 = _
    rw [Buffers.get, hx]
  dsimp only
  obtain hpending | ⟨hnone, e', he', hshows⟩ := WorkCall.read_cache hget
  · obtain ⟨ws, h, rfl, hws⟩ := hbuffer.pending k e hpending
    cases hvs
    rw [if_pos (by rw [Table.contains, hpending]; rfl)]
    have hloaded := hws.loaded (by simp [Happening.Upsets, Happening.ends])
    exact .answer hs.answered (.inr (hloaded.mono fun _ => .inl))
  · rw [if_neg (by rw [Table.contains, hnone]; simp)]
    refine .answer hs.answered ?_
    cases e with
    | absence =>
      cases hvs
      refine .inl ⟨rfl, fun hclosed => ?_⟩
      rw [hshows.eq_absence] at he'
      exact hcache.stored k .absence he' (.inr hclosed)
    | loading => cases hvs
    | encoded bs => cases hvs
    | rows ws =>
      cases hvs
      rw [hheap]
      exact .inr ⟨e', hcache.stored k e' he' (.inl hshows.bearsRows), hshows⟩

/-- Data changes, and a cache is to be cleared for it. -/
theorem updates (hs : s.Accounted G i L) {q : CacheRef} (h : s.Calls .clear q t)
    (hbare : t.session.Bare) :
    t.Accounted G i ((i, .updates (s.session.buffers.find s.world.pool q).1) :: L) := by
  refine ⟨h.named hs.named, fun k e he => ?_, fun r => ?_, fun r => ?_,
    .other hs.answered (by simp)⟩
  · rw [hbare.loaded] at he
    cases he
  · rw [h.unit hs.named r, Start.of_cons_self]
    split
    · exact .clear _ _
    · rename_i hr
      refine (hs.buffers r).cons ?_
      rintro (hends | hupdates)
      · cases hends
      · exact hr (Happening.updates.inj hupdates)
  · rw [h.unit hs.named r]
    split
    · exact ((hs.caches r).run (by simp)).cons (.of_ne (by simp))
    · exact (hs.caches r).cons (.of_ne (by simp))

/-- The unit of work ends, and the session is empty. -/
theorem ended (hs : s.Accounted G i L) {c : Instant → Buffer.Walk → WorkCall} (h : s.Empties c t)
    (hbare : t.session.Bare) {e : Happening} (he : e.ends = true)
    (hcaches : ∀ r now w,
      ((c now w).run Cache.ops (s.unit G.ids r)).2.Accounted G r ((i, e) :: L)) :
    t.Accounted G i ((i, e) :: L) := by
  refine ⟨h.named hs.named, fun k x hx => ?_, fun r => ?_, fun r => ?_,
    .other hs.answered fun k c vs h heq => ?_⟩
  · rw [hbare.loaded] at hx
    cases hx
  · obtain ⟨now, w, hunit⟩ := h.unit hs.named r
    rw [hunit, h.empties, Start.of_cons_self]
    exact .ended he
  · obtain ⟨now, w, hunit⟩ := h.unit hs.named r
    rw [hunit]
    exact hcaches r now w
  · obtain rfl : e = .answers k c vs h := heq
    cases he

theorem published (hs : s.Accounted G i L) (h : s.Empties (fun now => .commit now s.heap) t)
    (hbare : t.session.Bare) :
    t.Accounted G i ((i, .publishes s.session.buffers s.heap) :: L) := by
  refine hs.ended h hbare rfl fun r now w => ?_
  exact (hs.caches r).commit (hs.buffers r) (fun _ _ => Buffers.writes_of_front)
    (fun _ => Buffers.denies_of_front) now s.heap w

theorem dropped (hs : s.Accounted G i L) (h : s.Empties (fun now => .rollback now s.heap) t)
    (hbare : t.session.Bare) : t.Accounted G i ((i, .drops) :: L) :=
  hs.ended h hbare rfl fun r _ _ => ((hs.caches r).run (by simp)).cons (.of_ne (by simp))

/-- An update empties the session, and the buffer of a cache that is to be cleared for it. -/
theorem update (hs : s.Accounted G i L) (env : Env τ) (st : Statement) (param : Value) :
    (s.update env.source st param).2.Accounted G i
      (Log.tell i ((Call.update st param).told env s) ++ L) := by
  rw [State.update, Call.told]
  cases hopen : s.session.closed with
  | true =>
    rw [Session.ensureOpen, hopen]
    exact hs
  | false =>
    rw [ensureOpen_eq hopen]
    have hbare : (s.flush st).clearLoaded.session.Bare :=
      Session.bare_clearLoaded ((closed_flush st s).trans hopen)
    cases hcache : s.session.sharedCache st with
    | none =>
      have hflush : s.flush st = s := by rw [State.flush, hcache]
      rw [hflush] at hbare ⊢
      exact hs.of_bare hbare s.session.buffers_clearLoaded rfl
    | some q =>
      cases hflushes : st.flushes with
      | false =>
        have hflush : s.flush st = s := by rw [State.flush, hcache, hflushes]; rfl
        rw [hflush] at hbare ⊢
        exact hs.of_bare hbare s.session.buffers_clearLoaded rfl
      | true =>
        have hflush : s.flush st = { s with session := { s.session with
            buffers := s.session.buffers.clear q s.world.pool } } := by
          rw [State.flush, hcache, hflushes]
          rfl
        have hcleared := calls_clear q s
        rw [hflush] at hbare ⊢
        refine hs.updates ⟨?_, hcleared.pool⟩ hbare
        exact (Session.buffers_clearLoaded _).trans hcleared.buffers

/-- The session is emptied and its buffers are published. -/
theorem cleared_published (hs : s.Accounted G i L) (hopen : s.session.closed = false)
    (ht : t.session = s.session.clearLoaded) (hheap : t.world.heap = s.world.heap)
    (hpool : t.world.pool = s.world.pool) :
    t.commitBuffers.2.Accounted G i ((i, .publishes s.session.buffers s.heap) :: L) := by
  have hbare : t.session.Bare := by
    rw [ht]
    exact Session.bare_clearLoaded hopen
  have hbuffers : t.session.buffers = s.session.buffers := by
    rw [ht]
    exact s.session.buffers_clearLoaded
  have hpublished := (hs.of_bare hbare hbuffers hpool).published (t.empties_commit)
    ⟨hbare.loaded, hbare.outputs⟩
  rw [hbuffers, State.heap, hheap] at hpublished
  exact hpublished

/-- A commit publishes the buffers, unless the data source refuses it. -/
theorem commit (hs : s.Accounted G i L) (env : Env τ) (required : Bool) :
    (s.commit env.source required).2.Accounted G i
      (Log.tell i ((Call.commit required).told env s) ++ L) := by
  cases hopen : s.session.closed with
  | true =>
    rw [State.commit, Call.told, hopen]
    exact hs
  | false =>
    rw [State.commit, if_neg (by simp [hopen]), Call.told, if_neg (by simp [hopen])]
    cases required with
    | false => exact hs.cleared_published hopen rfl rfl rfl
    | true =>
      have hsource : s.clearLoaded.source env.source.commit =
          ((env.source.commit s.world.source).1, ⟨s.session.clearLoaded, { s.world with
            source := (env.source.commit s.world.source).2 }⟩) := rfl
      rw [if_pos rfl, if_pos rfl, hsource]
      generalize env.source.commit s.world.source = x
      obtain ⟨f | ⟨⟩, x⟩ := x
      · exact hs.of_bare (Session.bare_clearLoaded hopen) s.session.buffers_clearLoaded rfl
      · exact hs.cleared_published hopen rfl rfl rfl

/-- A rollback drops the buffers, whatever the data source says. -/
theorem rollback (hs : s.Accounted G i L) (env : Env τ) (required : Bool) :
    (s.rollback env.source required).2.Accounted G i
      (Log.tell i ((Call.rollback required).told env s) ++ L) := by
  cases hopen : s.session.closed with
  | true =>
    rw [State.rollback, Session.ensureOpen, Call.told, hopen]
    exact hs
  | false =>
    rw [State.rollback, ensureOpen_eq hopen, Call.told, if_neg (by simp [hopen])]
    have hbare := bare_rollbackLocal hopen env.source required
    have hsame : (s.rollbackLocal env.source required).2.session.buffers = s.session.buffers ∧
        (s.rollbackLocal env.source required).2.world.pool = s.world.pool := by
      cases required <;> exact ⟨s.session.buffers_clearLoaded, rfl⟩
    have hlocal := hs.of_bare hbare hsame.1 hsame.2
    exact hlocal.dropped (empties_rollback _) ⟨hbare.loaded, hbare.outputs⟩

/-- A session is closed: the buffers are dropped if that is asked for, and published otherwise. -/
theorem close (hs : s.Accounted G i L) (env : Env τ) (force : Bool) :
    (s.close env.source force).2.Accounted G i
      (Log.tell i ((Call.close force).told env s) ++ L) := by
  cases hopen : s.session.closed with
  | true =>
    rw [State.close, Call.told, hopen]
    exact hs
  | false =>
    have hbare := bare_close hopen env.source force
    rw [State.close, if_neg (by simp [hopen])] at hbare ⊢
    rw [Call.told, if_neg (by simp [hopen])]
    cases force with
    | true =>
      have hbuffers := s.rollbackBuffers.session.buffers_clearLoaded
      exact hs.dropped (s.empties_rollback.of_eq rfl rfl hbuffers rfl) hbare
    | false =>
      have hbuffers := s.commitBuffers.2.session.buffers_clearLoaded
      exact hs.published (s.empties_commit.of_eq rfl rfl hbuffers rfl) hbare

/-- The data source is asked for a key, which is marked. -/
theorem mark (hs : s.Accounted G i L) (k : Key) :
    (s.mark k).Accounted G i ((i, .asks k) :: L) := by
  have hasked : s.Accounted G i ((i, .asks k) :: L) :=
    hs.cons (Happening.not_upsetsAny rfl (by simp)) (.other hs.answered (by simp))
  refine hasked.of_loaded (fun j e he => ?_) rfl rfl
  by_cases hj : j = k
  · subst hj
    rw [State.mark, Table.get?_insert_self] at he
    exact .inl (Option.some.inj he).symm
  · rw [State.mark, Table.get?_insert_of_ne _ _ hj] at he
    exact .inr he

theorem unmark (hs : s.Accounted G i L) (k : Key) : (s.unmark k).Accounted G i L := by
  refine hs.of_loaded (fun j e he => .inr ?_) rfl rfl
  by_cases hj : j = k
  · subst hj
    rw [State.unmark, Table.get?_erase_self] at he
    cases he
  · rw [State.unmark, Table.get?_erase_of_ne _ hj] at he
    exact he

/-- Rows were loaded for a key. -/
theorem loads (hs : s.Accounted G i L) (k : Key) (vs : List Value) :
    s.Accounted G i ((i, .loads k vs) :: L) :=
  hs.cons (Happening.not_upsetsAny rfl (by simp)) (.other hs.answered (by simp))

theorem keepRows (hs : s.Accounted G i L) (hvs : LoadedSince Happening.UpsetsAny (G.of L i) k vs) :
    (s.keepRows k vs).Accounted G i L := by
  refine ⟨⟨hs.named.pool, hs.named.buffers⟩, fun j e he => ?_, hs.buffers, hs.caches, hs.answered⟩
  by_cases hj : j = k
  · subst hj
    rw [State.keepRows, Table.get?_insert_self] at he
    exact .inr ⟨vs, (Option.some.inj he).symm, hvs⟩
  · rw [State.keepRows, Table.get?_insert_of_ne _ _ hj] at he
    exact hs.session j e he

/-- A query ends with rows of the session's own, or without rows. -/
theorem answers (hs : s.Accounted G i L) (h : Heap)
    (hvs : vs = [] ∨ LoadedSince Happening.UpsetsAny (G.of L i) k vs) :
    s.Accounted G i ((i, .answers k none vs h) :: L) := by
  refine hs.cons (Happening.not_upsetsAny rfl (by simp))
    (.answer hs.answered (hvs.imp (⟨·, trivial⟩) fun hvs => ?_))
  exact hvs.mono fun e he => ⟨default, .inl he⟩

end State.Accounted

/-- A call that is no query runs, whatever the queries do. -/
theorem Call.run_quick (env : Env τ) (nested : Answering τ) {β : Type} {c : Call β}
    (hc : c.isQuery = false) (s : State τ) : ∃ b, c.run env nested s = some (b, c.after env s) := by
  cases c with
  | query q key handled => cases hc
  | _ => exact ⟨_, rfl⟩

/-- Every move of a session keeps it accounted for. -/
theorem accounted_follows (env : Env τ) (G : Start) (i : Nat) (L₁ : Log) :
    Follows env (fun _ _ => True) (fun _ => True)
      (fun d _ l s => s.session.depth = d ∧ s.Accounted G i (Log.tell i l ++ L₁))
      fun l k vs => LoadedSince Happening.UpsetsAny (G.of (Log.tell i l ++ L₁) i) k vs where
  confined _ _ := Assembly.confined_all _
  quick := by
    intro β c d ks l s _ hquery ⟨hdepth, hs⟩
    have hrun := c.run_quick env (fun _ _ _ _ => none) hquery s
    obtain ⟨b, hrun⟩ := hrun
    have hrestores := (State.restores_moves env.source).of_quick hquery hrun
    refine ⟨hrestores.depth.trans hdepth, ?_⟩
    rw [Log.tell, List.map_append, List.append_assoc]
    cases c with
    | query q key handled => cases hquery
    | update st param => exact hs.update env st param
    | commit required => exact hs.commit env required
    | rollback required => exact hs.rollback env required
    | close force => exact hs.close env force
    | clearLoaded => exact hs.clearLoaded
    | defer e =>
      obtain ⟨h, ds, hdefer⟩ := s.defer_deferred e
      rw [Call.after, hdefer]
      exact hs.of_eq rfl rfl rfl
    | _ => exact hs
  quiet hs _ hdepth hloaded hbuffers hpool :=
    ⟨hdepth.trans hs.1, hs.2.of_eq hloaded hbuffers hpool⟩
  flush st hs := by
    have hflushed := hs.2.flush st
    obtain ⟨bs, hflush⟩ := State.flush_buffers st _
    rw [hflush] at hflushed ⊢
    exact ⟨hs.1, hflushed⟩
  read r k hs := ⟨hs.1, hs.2.read r k⟩
  served hs hread hvs := ⟨hs.1, hs.2.served hread hvs⟩
  answered h hs hvs := ⟨hs.1, hs.2.answers h hvs⟩
  put {_ _ l s k vs} r hs hvs := by
    refine ⟨hs.1, hs.2.put (h := s.heap) r ?_⟩
    rw [Log.tell, List.map_cons, List.cons_append, Start.of_cons_self]
    exact .answers s.heap hvs
  release r k hs := ⟨hs.1, hs.2.release r k⟩
  anew _ _ hs := ⟨(State.restores_clearLoaded _).depth.trans hs.1, hs.2.clearLoaded⟩
  enter hs := ⟨congrArg (· + 1) hs.1, hs.2.of_eq rfl rfl rfl⟩
  leave hs := ⟨congrArg (· - 1) hs.1, hs.2.of_eq rfl rfl rfl⟩
  finish reply hs :=
    ⟨((State.restores_moves env.source).of_finish reply _).depth.trans hs.1, hs.2.finish reply⟩
  depth hs := hs.1
  held {_ _ _ s k e vs} hs he hvs := by
    obtain rfl | ⟨ws, rfl, hws⟩ := hs.2.session k e he
    · cases hvs
    · cases hvs
      exact hws
  mark _ _ hs := ⟨hs.1, hs.2.mark _⟩
  unmark hs := ⟨hs.1, hs.2.unmark _⟩
  kept {q key k d ks l s} vs _ hs := by
    refine ⟨hs.1, ((hs.2.loads k vs).unmark k).keepRows ?_⟩
    rw [Start.of_cons_self]
    exact .loads _ _
  handed vs _ hs := ⟨hs.1, (hs.2.loads _ vs).unmark _⟩
  backs_loads l k vs := by
    rw [Log.tell, List.map_cons, List.cons_append, Start.of_cons_self]
    exact .loads _ _

end ResultCache
