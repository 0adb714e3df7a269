import ResultCache.Proofs.Session.Provenance

/-!
# Where rows come from in many sessions

A run of many sessions comes with the log of what happened in it (`System.Runs`). Sessions are called
one after the other, each with a data source and assemblies of its own. Between calls anything may
happen to the objects, the clock and the data source. A run is a diary if shared caches get no new
rows between calls, and a journal if they get nothing at all: then nobody but the sessions writes to
them.

The log accounts for all rows in reach of each session (`System.Diary.accounted`), and in a journal
for every entry of a shared cache (`System.Journal.accounted`). So no session ever sees rows of
another one that were not published (`unpublished_rows_unseen`).
-/
namespace ResultCache

/-- What a log starts from when shared caches are like this. -/
def Pool.start (p : Pool) (closed : Prop) (past : Log) : Start where
  ids := p.idOf
  layers r := (p.get r).layers
  past := past
  closed := closed
  had r k e := (p.get r).store.entries.get? k = some e ∧ (e.bearsRows = true ∨ closed)

theorem Pool.of_start_nil (p : Pool) (closed : Prop) (L : Log) (i : Nat) :
    (p.start closed []).of L i = L.of i := by
  rw [Start.of, start, List.append_nil]

/-- Every cache keeps its name and its layers and gets no new rows. -/
structure Pool.Wanes (p p' : Pool) : Prop where
  ids : ∀ r, p'.idOf r = p.idOf r
  layers : ∀ r, (p'.get r).layers = (p.get r).layers
  stored : ∀ r k e, (p'.get r).store.entries.get? k = some e → e.bearsRows = true →
    (p.get r).store.entries.get? k = some e

/-- Every cache keeps its name and its layers and gets nothing new. -/
structure Pool.Fades (p p' : Pool) : Prop where
  ids : ∀ r, p'.idOf r = p.idOf r
  layers : ∀ r, (p'.get r).layers = (p.get r).layers
  stored : ∀ r k e, (p'.get r).store.entries.get? k = some e →
    (p.get r).store.entries.get? k = some e

theorem Pool.Fades.refl (p : Pool) : p.Fades p := ⟨fun _ => rfl, fun _ => rfl, fun _ _ _ => id⟩

theorem Pool.Fades.wanes {p p' : Pool} (h : p.Fades p') : p.Wanes p' :=
  ⟨h.ids, h.layers, fun r k e he _ => h.stored r k e he⟩

variable {τ : Type} {env : Nat → Env τ} {S₀ S S' : System τ} {L : Log} {G : Start} {i : Nat}

namespace State.Accounted

variable {s t : State τ} {w : World τ} {j : Nat} {l : List Happening}

/-- What the session did in a call from outside. -/
theorem perform {e : Env τ} {limit : Nat} {β : Type} {c : Call β} {b : β} (hs : s.Accounted G i L)
    (hdepth : s.session.depth = 0) (hperform : e.perform limit c s = some (b, t)) :
    t.session.depth = 0 ∧ t.Accounted G i (Log.tell i (e.tells limit c s) ++ L) := by
  have hopens : Follows.Opening (fun _ => True) c := by cases c <;> trivial
  have ht := (accounted_follows e G i L).perform (L := []) trivial hopens hperform
    ⟨hdepth, hs⟩
  rw [List.append_nil] at ht
  exact ht

/-- What another session did. -/
theorem other (hs : s.Accounted G j L) (ht : t.Accounted G i (Log.tell i l ++ L)) (hij : i ≠ j) :
    State.Accounted G j (Log.tell i l ++ L) ⟨s.session, t.world⟩ := by
  have hof := G.of_tell_of_ne L l hij
  refine ⟨⟨ht.named.pool, hs.named.buffers⟩, ?_, fun r => ?_, ht.caches, ht.answered⟩
  · rw [hof]
    exact hs.session
  · rw [hof]
    exact hs.buffers r

/-- Shared caches get no new rows, or nothing new at all if only sessions write to them. -/
theorem wanes (hs : s.Accounted G i L) (hw : s.world.pool.Wanes w.pool)
    (hfades : G.closed → s.world.pool.Fades w.pool) : State.Accounted G i L ⟨s.session, w⟩ := by
  refine ⟨⟨fun r => (hw.ids r).trans (hs.named.pool r), hs.named.buffers⟩, hs.session, hs.buffers,
    fun r => ⟨(hw.layers r).trans (hs.caches r).layers, fun k e he hcounts => ?_⟩, hs.answered⟩
  refine (hs.caches r).stored k e ?_ hcounts
  obtain hrows | hclosed := hcounts
  · exact hw.stored r k e he hrows
  · exact (hfades hclosed).stored r k e he

/-- The log begins anew. -/
theorem anew (hs : s.Accounted G i L) (closed : Prop) :
    s.Accounted (s.world.pool.start closed (L ++ G.past)) i [] := by
  have hids : s.world.pool.idOf = G.ids := funext hs.named.pool
  refine ⟨⟨fun _ => rfl, ?_⟩, hs.session, fun r => ?_,
    fun r => ⟨rfl, fun _ _ he hcounts => .start ⟨he, hcounts⟩⟩, .start⟩
  · rw [Pool.start, hids]
    exact hs.named.buffers
  · rw [Pool.start, hids]
    exact hs.buffers r

end State.Accounted

namespace System

/-- New sessions. -/
def New (S : System τ) : Prop := ∀ i, ∃ c walk, S.sessions i = .new c walk

/-- The systems that calls of sessions and other changes lead to, and what happened on the way, the
latest first. Between calls only what `outside` says happens to the shared caches. -/
inductive Runs (outside : Pool → Pool → Prop) (env : Nat → Env τ) (S₀ : System τ) :
    Log → System τ → Prop
  | start : Runs outside env S₀ [] S₀
  | call {L : Log} {S S' : System τ} {limit i : Nat} {β : Type} {c : Call β} {b : β} :
    Runs outside env S₀ L S → S.call (env i) limit i c = some (b, S') →
    Runs outside env S₀ (Log.tell i ((env i).tells limit c (S.state i)) ++ L) S'
  | outside {L : Log} {S : System τ} {w : World τ} :
    Runs outside env S₀ L S → outside S.world.pool w.pool → Runs outside env S₀ L ⟨S.sessions, w⟩

/-- A run in which shared caches get rows from sessions only. -/
abbrev Diary (env : Nat → Env τ) (S₀ : System τ) : Log → System τ → Prop :=
  Runs Pool.Wanes env S₀

/-- A run in which nobody but the sessions writes to shared caches. -/
abbrev Journal (env : Nat → Env τ) (S₀ : System τ) : Log → System τ → Prop :=
  Runs Pool.Fades env S₀

theorem Runs.mono {outside outside' : Pool → Pool → Prop}
    (h : ∀ p p', outside p p' → outside' p p') (hS : S₀.Runs outside env L S) :
    S₀.Runs outside' env L S := by
  induction hS with
  | start => exact .start
  | call _ hcall ih => exact .call ih hcall
  | outside _ hw ih => exact .outside ih (h _ _ hw)

theorem Journal.diary (hS : S₀.Journal env L S) : S₀.Diary env L S :=
  hS.mono fun _ _ => Pool.Fades.wanes

/-- The log accounts for all rows in reach, and no query is running. -/
structure Accounted (G : Start) (L : Log) (S : System τ) : Prop where
  depth : ∀ i, (S.sessions i).depth = 0
  state : ∀ i, (S.state i).Accounted G i L

/-- A log that has not begun accounts for what is there. -/
theorem New.accounted (h₀ : S₀.New) (closed : Prop) :
    S₀.Accounted (S₀.world.pool.start closed []) [] := by
  refine ⟨fun i => ?_, fun i => ?_⟩
  · obtain ⟨c, walk, hc⟩ := h₀ i
    rw [hc]
    rfl
  · obtain ⟨c, walk, hc⟩ := h₀ i
    rw [state, hc]
    have hclears : ∀ r, ¬ Clears r (Start.of (S₀.world.pool.start closed []) [] i) := by
      rintro r ⟨later, earlier, hl, -⟩
      exact absurd hl (by simp [Start.of, Pool.start, Log.of])
    exact ⟨⟨fun _ => rfl, fun _ _ _ hb => (by cases hb)⟩, fun _ _ he => (by cases he),
      fun r => ⟨fun _ _ he => (by cases he), fun hc => absurd hc (hclears r)⟩,
      fun r => ⟨rfl, fun _ _ he hcounts => .start ⟨he, hcounts⟩⟩, .start⟩

theorem state_back_self (S : System τ) (i : Nat) (t : State τ) : (S.back i t).state i = t := by
  have hsession : (S.back i t).sessions i = t.session := Function.update_self _ _ _
  exact congrArg (State.mk · t.world) hsession

theorem state_back_of_ne (S : System τ) {i j : Nat} (t : State τ) (hj : j ≠ i) :
    (S.back i t).state j = ⟨S.sessions j, t.world⟩ := by
  have hsession : (S.back i t).sessions j = S.sessions j := Function.update_of_ne hj _ _
  exact congrArg (State.mk · t.world) hsession

/-- What one session does is accounted for in all of them. -/
theorem Accounted.back {t : State τ} {l : List Happening} (hS : S.Accounted G L)
    (hdepth : t.session.depth = 0) (ht : t.Accounted G i (Log.tell i l ++ L)) :
    (S.back i t).Accounted G (Log.tell i l ++ L) := by
  refine ⟨fun j => ?_, fun j => ?_⟩
  · change ((S.back i t).state j).session.depth = 0
    by_cases hj : j = i
    · subst hj
      rw [state_back_self]
      exact hdepth
    · rw [state_back_of_ne S t hj]
      exact hS.depth j
  · by_cases hj : j = i
    · subst hj
      rw [state_back_self]
      exact ht
    · rw [state_back_of_ne S t hj]
      exact (hS.state j).other ht (Ne.symm hj)

/-- What goes on from a system that is accounted for is accounted for. -/
theorem Accounted.runs {outside : Pool → Pool → Prop} {L₀ : Log} (h₀ : S₀.Accounted G L₀)
    (hwanes : ∀ p p', outside p p' → p.Wanes p')
    (hfades : G.closed → ∀ p p', outside p p' → p.Fades p') (hS : S₀.Runs outside env L S) :
    S.Accounted G (L ++ L₀) := by
  induction hS with
  | start => exact h₀
  | @call L S S' limit i β c b _ hcall ih =>
    obtain ⟨⟨b, t⟩, hperform, heq⟩ := Option.map_eq_some_iff.1 hcall
    cases heq
    obtain ⟨hdepth, ht⟩ := (ih.state i).perform (ih.depth i) hperform
    rw [List.append_assoc]
    exact ih.back hdepth ht
  | outside _ hw ih =>
    exact ⟨ih.depth, fun i =>
      (ih.state i).wanes (hwanes _ _ hw) fun hclosed => hfades hclosed _ _ hw⟩

/-- The log accounts for all rows in reach of any session. -/
theorem Diary.accounted (h₀ : S₀.New) (hS : S₀.Diary env L S) :
    S.Accounted (S₀.world.pool.start False []) L := by
  have haccounted := (h₀.accounted False).runs (fun _ _ => id) False.elim hS
  rw [List.append_nil] at haccounted
  exact haccounted

/-- If only sessions write to shared caches, it accounts for all that these have. -/
theorem Journal.accounted (h₀ : S₀.New) (hS : S₀.Journal env L S) :
    S.Accounted (S₀.world.pool.start True []) L := by
  have haccounted := (h₀.accounted True).runs (fun _ _ => Pool.Fades.wanes) (fun _ _ _ => id) hS
  rw [List.append_nil] at haccounted
  exact haccounted

end System

/-- Calls that publish nothing. -/
def Call.Holding (β : Type) (c : Call β) : Prop :=
  match c with
  | .commit _ | .close false => False
  | _ => True

theorem Call.told_holding {e : Env τ} {β : Type} {c : Call β} (hc : c.Holding) (s : State τ)
    (bs : Buffers) (h : Heap) : .publishes bs h ∉ c.told e s := by
  cases c with
  | commit required => exact hc.elim
  | close force =>
    cases force with
    | false => exact hc.elim
    | true =>
      rw [told]
      split <;> simp
  | rollback required =>
    rw [told]
    split <;> simp
  | update st param =>
    rw [told]
    repeat' split
    all_goals simp
  | _ => simp [told]

/-- A session publishes nothing if it is not told to, and its assemblies do not tell it to. -/
theorem holding_follows (e : Env τ)
    (hconfined : ∀ st rs, (e.materializer st rs).Confined Call.Holding) :
    Follows e Call.Holding (fun _ => True)
      (fun d _ l s => s.session.depth = d ∧ ∀ bs h, .publishes bs h ∉ l) fun _ _ _ => True where
  confined := hconfined
  quick := by
    intro β c d ks l s hc hquery ⟨hdepth, hl⟩
    obtain ⟨b, hrun⟩ := c.run_quick e (fun _ _ _ _ => none) hquery s
    have hrestores := (State.restores_moves e.source).of_quick hquery hrun
    refine ⟨hrestores.depth.trans hdepth, fun bs h hmem => ?_⟩
    rcases List.mem_append.1 hmem with hmem | hmem
    · exact Call.told_holding hc s bs h hmem
    · exact hl bs h hmem
  quiet hs _ hdepth _ _ _ := ⟨hdepth.trans hs.1, hs.2⟩
  flush st hs := by
    obtain ⟨bs, hflush⟩ := State.flush_buffers st _
    rw [hflush]
    exact hs
  read _ _ hs := hs
  served hs _ _ := ⟨hs.1, by simpa using hs.2⟩
  answered _ hs _ := ⟨hs.1, by simpa using hs.2⟩
  put _ hs _ := hs
  release _ _ hs := hs
  anew _ _ hs := ⟨(State.restores_clearLoaded _).depth.trans hs.1, hs.2⟩
  enter hs := ⟨congrArg (· + 1) hs.1, hs.2⟩
  leave hs := ⟨congrArg (· - 1) hs.1, hs.2⟩
  finish reply hs := ⟨((State.restores_moves e.source).of_finish reply _).depth.trans hs.1, hs.2⟩
  depth hs := hs.1
  held _ _ _ := trivial
  mark _ _ hs := ⟨hs.1, by simpa using hs.2⟩
  unmark hs := hs
  kept _ _ hs := ⟨hs.1, by simpa using hs.2⟩
  handed _ _ hs := ⟨hs.1, by simpa using hs.2⟩
  backs_loads _ _ _ := trivial

/-- A session published an entry for a key of a shared cache. -/
def Log.Published (L : Log) (coded : Bool) (r : CacheRef) (k : Key) (e : Entry) : Prop :=
  ∃ p : Publication, p.Occurs L r k ∧ e = p.entry coded

namespace System

/-- New sessions, and shared caches without rows. -/
structure Blank (S : System τ) : Prop where
  sessions : S.New
  caches : ∀ r k e, (S.world.pool.get r).store.entries.get? k = some e → e.bearsRows = false

/-- New sessions, and shared caches with nothing in them. -/
structure Fresh (S : System τ) : Prop where
  sessions : S.New
  caches : ∀ r k, (S.world.pool.get r).store.entries.get? k = none

theorem Fresh.blank (h₀ : S₀.Fresh) : S₀.Blank :=
  ⟨h₀.sessions, fun r k e he => by rw [h₀.caches r k] at he; cases he⟩

/-- Whether a shared cache keeps rows coded. -/
def coded (S : System τ) (r : CacheRef) : Bool := storesCoded false (S.world.pool.get r).layers

/-- All rows that shared caches have were published. -/
theorem Blank.published (h₀ : S₀.Blank) {closed : Prop} {r : CacheRef} {k : Key} {e : Entry}
    (he : (S₀.world.pool.start closed []).Stocked r k L e) (hrows : e.bearsRows = true) :
    L.Published (S₀.coded r) r k e := by
  obtain ⟨hhad, -⟩ | ⟨later, p, earlier, hL, hp, he, -⟩ := he.origin hrows
  · rw [h₀.caches r k e hhad] at hrows
    cases hrows
  · exact ⟨p, ⟨later, earlier, hL, by simpa [Pool.start] using hp⟩, he⟩

/-- A call in which nothing is published gives the shared caches no new rows. -/
theorem Accounted.wanes {limit : Nat} {β : Type} {c : Call β} {b : β} (hS : S.Accounted G L)
    (hcall : S.call (env i) limit i c = some (b, S'))
    (hheld : ∀ bs h, .publishes bs h ∉ (env i).tells limit c (S.state i)) :
    S.world.pool.Wanes S'.world.pool := by
  obtain ⟨⟨b, t⟩, hperform, heq⟩ := Option.map_eq_some_iff.1 hcall
  cases heq
  obtain ⟨-, ht⟩ := ((hS.state i).anew False).perform (hS.depth i) hperform
  refine ⟨ht.named.pool, fun r => (ht.caches r).layers, fun r k e he hrows => ?_⟩
  obtain ⟨hhad, -⟩ | ⟨later, p, earlier, hlog, -⟩ :=
    ((ht.caches r).stored k e he (.inl hrows)).origin hrows
  · exact hhad
  · have hmem : p.event ∈ Log.tell i ((env i).tells limit c (S.state i)) ++ [] := by
      rw [hlog]
      exact List.mem_append_right _ List.mem_cons_self
    rw [List.append_nil] at hmem
    obtain ⟨a, ha, heq⟩ := List.mem_map.1 hmem
    cases heq
    exact absurd ha (hheld _ _)

/-- No dirty read. All rows that a shared cache has were published: a session committed, with the
consent of the data source if that was required, or was closed without force, when its buffer had
them. Apart from that no call gives a shared cache new rows. And every query, nested ones included,
is answered with rows that its own session has loaded in the unit of work that is still open, or
with rows that were published before; a query that returns rows was answered with them. -/
theorem unpublished_rows_unseen (h₀ : S₀.Blank) (hS : S₀.Diary env L S) :
    (∀ r k e, (S.world.pool.get r).store.entries.get? k = some e → e.bearsRows = true →
      L.Published (S₀.coded r) r k e) ∧
    (∀ limit i β (c : Call β) b S', S.call (env i) limit i c = some (b, S') → c.Holding →
      (c.isQuery = true → ∀ st rs, ((env i).materializer st rs).Confined Call.Holding) →
      S.world.pool.Wanes S'.world.pool) ∧
    (∀ later j k c vs h earlier, L = later ++ (j, .answers k c vs h) :: earlier →
      vs = [] ∨ (c = none ∧ LoadedSince (·.ends = true) (Log.of earlier j) k vs) ∨
        ∃ r e, c = some r ∧ Log.Published earlier (S₀.coded r) r k e ∧ e.Shows (.rows vs) h) ∧
    (∀ limit j q key handled reply vs S',
      S.call (env j) limit j (.query q key handled) = some (reply, S') → reply.result = .ok vs →
      ∃ k c l, (env j).tells limit (.query q key handled) (S.state j) =
        .answers k c reply.rows S'.heap :: l) := by
  have haccounted := hS.accounted h₀.sessions
  refine ⟨fun r k e he hrows => ?_, fun limit i β c b S' hcall hc hconfined => ?_,
    fun later j k c vs h earlier hL => ?_, fun limit j q key handled reply vs S' hcall hvs => ?_⟩
  · exact h₀.published (((haccounted.state 0).caches r).stored k e he (.inl hrows)) hrows
  · refine haccounted.wanes hcall fun bs h => ?_
    cases hquery : c.isQuery with
    | false =>
      cases c with
      | query q key handled => cases hquery
      | _ => exact Call.told_holding (e := env i) hc (S.state i) bs h
    | true =>
      obtain ⟨⟨b, t⟩, hperform, -⟩ := Option.map_eq_some_iff.1 hcall
      have hopens : Follows.Opening (fun _ => True) c := by cases c <;> trivial
      have hheld := ((holding_follows (env i) (hconfined hquery)).perform (L := []) hc
        hopens hperform ⟨haccounted.depth i, by simp⟩).2 bs h
      rw [List.append_nil] at hheld
      exact hheld
  · have hanswered := (haccounted.state j).answered
    rw [hL] at hanswered
    refine hanswered.backed.imp And.left fun hbacks => ?_
    cases c with
    | none =>
      rw [Start.Backs, Pool.of_start_nil] at hbacks
      exact .inl ⟨rfl, hbacks⟩
    | some r =>
      obtain ⟨e, he, hshows⟩ := hbacks
      exact .inr ⟨r, e, rfl, h₀.published he hshows.bearsRows, hshows⟩
  · obtain ⟨⟨reply, t⟩, hperform, heq⟩ := Option.map_eq_some_iff.1 hcall
    cases heq
    exact Env.tells_answers hperform hvs

/-- What happens in a step. -/
def events (env : Env τ) (limit : Nat) (S : System τ) : Act → Log
  | .query i st param w =>
    Log.tell i (env.tells limit (.query (.ofStatement st param w) none false) (S.state i))
  | .update i st param => Log.tell i (env.tells limit (.update st param) (S.state i))
  | .commit i required => Log.tell i (env.tells limit (.commit required) (S.state i))
  | .rollback i required => Log.tell i (env.tells limit (.rollback required) (S.state i))
  | .close i force => Log.tell i (env.tells limit (.close force) (S.state i))
  | .make _ | .write .. | .wait _ => []

/-- The log of some acts, after the log so far. -/
def logs (env : Env τ) (limit : Nat) : List Act → Log → System τ → Option (Log × System τ)
  | [], L, S => some (L, S)
  | a :: as, L, S =>
    (S.step env limit a).bind fun p => logs env limit as (S.events env limit a ++ L) p.2

theorem Journal.step {env : Env τ} (hS : S₀.Journal (fun _ => env) L S) {limit : Nat} {a : Act}
    {x : Option Reply} (hstep : S.step env limit a = some (x, S')) :
    S₀.Journal (fun _ => env) (S.events env limit a ++ L) S' := by
  have hcall : ∀ {i : Nat} {β : Type} {c : Call β} {f : β → Option Reply},
      (S.call env limit i c).map (fun p => (f p.1, p.2)) = some (x, S') →
      S₀.Journal (fun _ => env) (Log.tell i (env.tells limit c (S.state i)) ++ L) S' := by
    intro i β c f hmap
    obtain ⟨⟨b, T⟩, hcall, heq⟩ := Option.map_eq_some_iff.1 hmap
    cases heq
    exact hS.call hcall
  cases a with
  | query i st param w => exact hcall (f := some) hstep
  | update i st param => exact hcall (c := .update st param) (f := fun _ => none) hstep
  | commit i required => exact hcall (c := .commit required) (f := fun _ => none) hstep
  | rollback i required => exact hcall (c := .rollback required) (f := fun _ => none) hstep
  | close i force => exact hcall (c := .close force) (f := fun _ => none) hstep
  | _ =>
    cases hstep
    exact hS.outside (.refl _)

theorem Journal.logs {env : Env τ} (hS : S₀.Journal (fun _ => env) L S) {limit : Nat}
    {as : List Act} {L' : Log} (hlogs : S.logs env limit as L = some (L', S')) :
    S₀.Journal (fun _ => env) L' S' := by
  induction as generalizing L S with
  | nil =>
    cases hlogs
    exact hS
  | cons a as ih =>
    obtain ⟨⟨x, T⟩, hstep, hrest⟩ := Option.bind_eq_some_iff.1 hlogs
    exact ih (Journal.step hS hstep) hrest

theorem exists_log_of_brief {env : Env τ} {limit : Nat} {as : List Act}
    {bs : List (Nat × Happening.Brief)}
    (hrun : (S.logs env limit as []).map (fun p => p.1.brief) = some bs) :
    ∃ L S', S.logs env limit as [] = some (L, S') ∧ L.brief = bs := by
  obtain ⟨⟨L, S'⟩, hlogs, hbrief⟩ := Option.map_eq_some_iff.1 hrun
  exact ⟨L, S', hlogs, hbrief⟩

/-- New caches as they were built have nothing. -/
theorem Initial.fresh (h₀ : S₀.Initial) : S₀.Fresh := by
  refine ⟨h₀.sessions, fun r k => ?_⟩
  have hstore : (S₀.world.pool.get r).store.entries = .empty := by
    rcases h₀.caches r with hr | ⟨now, g, id, config, hg, hr⟩
    · rw [hr]
      rfl
    · rw [Cache.build_store hg hr]
      rfl
  rw [hstore]
  rfl

theorem Initial.blank (h₀ : S₀.Initial) : S₀.Blank := h₀.fresh.blank

/-- A session is answered with a row that another one loaded, and that one had committed before. -/
theorem unpublished_rows_unseen_newSystem :
    ∃ L S, newSystem.Diary (fun _ => rowEnv) L S ∧
      ∃ vs h earlier e, L = (1, .answers rowKey (some ⟨0⟩) vs h) :: earlier ∧
        vs.map h.freeze = [.object [("id", .int 1)]] ∧
        Log.Published earlier true ⟨0⟩ rowKey e ∧ e.Shows (.rows vs) h := by
  have hrun : (newSystem.logs rowEnv 1 [.query 0 rowQuery (.int 1) .unbounded, .commit 0 true,
      .query 1 rowQuery (.int 1) .unbounded] []).map (fun p => p.1.brief) =
        some [(1, .answers rowKey (some ⟨0⟩) [.object [("id", .int 1)]]), (0, .publishes),
          (0, .answers rowKey none [.object [("id", .int 1)]]),
          (0, .loads rowKey [.object ⟨0⟩]), (0, .asks rowKey)] := by decide +kernel
  obtain ⟨L, S, hlogs, hbrief⟩ := exists_log_of_brief hrun
  have hS := (Journal.logs .start hlogs).diary
  obtain ⟨e, earlier, hL, he, -⟩ := Log.eq_cons_of_brief hbrief
  obtain ⟨vs, h, rfl, hvs⟩ := Happening.eq_answers he
  obtain ⟨-, -, hanswers, -⟩ := unpublished_rows_unseen initial_newSystem.blank hS
  obtain rfl | ⟨hnone, -⟩ | ⟨r, e, hr, he, hshows⟩ := hanswers [] _ _ _ _ _ _ hL
  · cases hvs
  · cases hnone
  · cases hr
    exact ⟨L, S, hS, vs, h, earlier, e, hL, hvs, he, hshows⟩

end System

end ResultCache
