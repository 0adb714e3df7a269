import Mathlib.Data.List.Dedup
import Mathlib.Data.List.Perm.Subperm
import ResultCache.Proofs.Session.Marks
import ResultCache.Proofs.Session.Transparency
import ResultCache.Proofs.Session.Watch

/-!
# Nested queries end

A query that is answered inside others works on a stack of keys: those of the queries around it, each
of which the session holds a mark for (`State.Nests`). A property whose key is on the stack is
deferred, because the mark counts as something the session holds; so a nested query always puts a new
key on the stack, and queries never nest deeper than there are keys. A key that was loaded stays held
until the outermost query is answered, unless a fault ends everything before (`State.Going`), so no
key is loaded twice.
-/
namespace ResultCache

/-- Whether a fault says that a query asked for a result that was still loading. -/
def Fault.IsReentry (f : Fault) : Prop := ∃ st k, f = .execution (.reentered st k)

/-- No read of the cache ends with the fault that a result is still loading. -/
def CacheOps.Spares {σ : Type} (B : CacheOps σ) : Prop :=
  ∀ now h k s f, (B.get now h k s).1 = .error f → ¬ f.IsReentry

theorem Store.spares : Store.ops.Spares := by
  rintro now h k s f hf ⟨st, j, rfl⟩
  change s.get k = _ at hf
  rw [Store.get] at hf
  split at hf
  · cases hf
  · cases hf

section Layers

variable {σ : Type} {B : CacheOps σ}

theorem Expiry.spares (hB : B.Spares) : (Expiry.ops B).Spares := by
  intro now h k s f hf
  change (Expiry.get B now h k s).1 = _ at hf
  rw [Expiry.get] at hf
  split at hf
  · cases hf
  · exact hB now h k s.2 f hf

theorem Gate.spares (hB : B.Spares) : (Gate.ops B).Spares := by
  intro now h k s f hf
  have hunder := hB now h k s.2
  change (Gate.get B now h k s).1 = _ at hf
  rw [Gate.get] at hf
  split at hf
  · rintro ⟨st, j, rfl⟩
    have hwait := Except.error.inj hf
    rw [Gate.waitFault] at hwait
    split at hwait <;> cases hwait
  · generalize B.get now h k s.2 = r at hf hunder
    rcases r with ⟨_ | _ | _, h', u⟩
    · exact hunder f hf
    · cases hf
    · cases hf

theorem Copying.spares (hB : B.Spares) : (Copying.ops B).Spares := by
  intro now h k s f hf
  have hunder := hB now h k s.2
  change (Copying.restoreBelow (B.id s.2) (B.get now h k s.2)).1 = _ at hf
  generalize B.get now h k s.2 = r at hf hunder
  rcases r with ⟨_ | e, h', u⟩
  · exact hunder f hf
  · rintro ⟨st, j, rfl⟩
    change (Copying.restored (B.id s.2) h' e).1 = _ at hf
    rw [Copying.restored.eq_def] at hf
    repeat' split at hf
    all_goals cases hf

theorem Counting.spares (hB : B.Spares) : (Counting.ops B).Spares := by
  intro now h k s f hf
  have hunder := hB now h k s.2
  change (Counting.get B now h k s).1 = _ at hf
  rw [Counting.get] at hf
  generalize B.get now h k s.2 = r at hf hunder
  rcases r with ⟨_ | _, h', u⟩
  · exact hunder f hf
  · cases hf

end Layers

theorem spares_stackOps (ls : List Layer) : (stackOps ls).Spares := by
  induction ls with
  | nil => exact Store.spares
  | cons l ls ih =>
    cases l with
    | recency => exact fun now h k s => ih now h k s.2
    | arrival => exact fun now h k s => ih now h k s.2
    | expiry => exact Expiry.spares ih
    | gate => exact Gate.spares ih
    | copying => exact Copying.spares ih
    | exclusive => exact fun now h k s => ih now h k s.2
    | counting => exact Counting.spares ih

theorem Cache.spares : Cache.ops.Spares := fun now h k c => spares_stackOps c.layers now h k c.state

/-- The data source has other faults than that a result is still loading. -/
def DataSource.Spares {τ : Type} (D : DataSource τ) : Prop :=
  ∀ st b param w h t f, (D.query st b param w h t).1 = .error f → ¬ f.IsReentry

variable {τ : Type}

namespace Step

/-- The keys of the queries that were asked for. -/
def askedKeys (steps : List Step) : List Key :=
  steps.filterMap fun
    | .asked k _ _ => some k
    | .loaded _ => none

/-- The keys whose rows the data source was asked for. -/
def loadedKeys (steps : List Step) : List Key :=
  steps.filterMap fun
    | .asked _ _ _ => none
    | .loaded k => some k

/-- How many keys were asked for. -/
def count (steps : List Step) : Nat := (askedKeys steps).dedup.length

/-- No key was loaded twice, none was asked for while it was loading, and queries were nested less
deep than keys were asked for. -/
structure Orderly (steps : List Step) : Prop where
  once : (loadedKeys steps).Nodup
  asked : ∀ k d held, .asked k d held ∈ steps → held ≠ some .loading ∧ d < count steps

theorem count_le_asked (steps : List Step) (k : Key) (d : Nat) (held : Option Entry) :
    count steps ≤ count (.asked k d held :: steps) := by
  have hsub : (askedKeys steps).dedup ⊆ (k :: askedKeys steps).dedup := fun j hj =>
    List.mem_dedup.2 (List.mem_cons_of_mem _ (List.mem_dedup.1 hj))
  exact (List.subperm_of_subset (List.nodup_dedup _) hsub).length_le

/-- Distinct keys that were all asked for are no more than were asked for. -/
theorem length_le_count {ks : List Key} (hks : ks.Nodup) {steps : List Step}
    (hasked : ∀ k ∈ ks, k ∈ askedKeys steps) : ks.length ≤ count steps :=
  (List.subperm_of_subset hks fun k hk => List.mem_dedup.2 (hasked k hk)).length_le

end Step

open Step

namespace State

/-- The session is answering queries inside one another, with the keys `ks`, the innermost first, and
`d` deep. If it was stopped, more than `limit` keys were asked for. -/
structure Nests (limit : Nat) (ks : List Key) (d : Nat) (s : State (Watched τ)) : Prop where
  distinct : ks.Nodup
  depth : s.session.depth = d
  loading : ∀ k, s.session.loaded.get? k = some .loading ↔ k ∈ ks
  asked : ∀ k ∈ ks, k ∈ askedKeys s.steps
  orderly : Orderly s.steps
  stopped : s.stopped = true → limit < count s.steps

/-- Whatever was loaded is held, and the run was not stopped. -/
structure Going (s : State (Watched τ)) : Prop where
  kept : ∀ k ∈ loadedKeys s.steps, s.session.loaded.contains k = true
  running : s.stopped = false

/-- What is known after a run that began among the keys `ks`: the session is among them again, and
goes on if there was no fault. -/
structure Leads (D : DataSource τ) (limit : Nat) (ks : List Key) (d : Nat) {α : Type}
    (r : Result α) (t : State (Watched τ)) : Prop where
  nests : t.Nests limit ks d
  going : ks ≠ [] → ∀ a, r = .ok a → t.Going
  fault : D.Spares → ∀ f, r = .error f → ¬ f.IsReentry

/-- What does not matter to the keys that are loading. -/
structure Same (s t : State (Watched τ)) : Prop where
  loaded : t.session.loaded = s.session.loaded
  depth : t.session.depth = s.session.depth
  source : t.world.source = s.world.source

variable {D : DataSource τ} {limit d : Nat} {ks : List Key} {s t u : State (Watched τ)}

theorem Same.refl (s : State (Watched τ)) : s.Same s := ⟨rfl, rfl, rfl⟩

theorem Same.steps (h : s.Same t) : t.steps = s.steps := congrArg Watched.steps h.source

theorem Same.stopped (h : s.Same t) : t.stopped = s.stopped := congrArg Watched.stopped h.source

theorem Nests.of_same (hs : s.Nests limit ks d) (h : s.Same t) : t.Nests limit ks d := by
  refine ⟨hs.distinct, h.depth.trans hs.depth, ?_, ?_, ?_, ?_⟩
  · rw [h.loaded]
    exact hs.loading
  · rw [h.steps]
    exact hs.asked
  · rw [h.steps]
    exact hs.orderly
  · rw [h.steps, h.stopped]
    exact hs.stopped

theorem Going.of_same (hs : s.Going) (h : s.Same t) : t.Going := by
  refine ⟨?_, h.stopped.trans hs.running⟩
  rw [h.steps, h.loaded]
  exact hs.kept

/-- A result that is made of another one. -/
theorem Leads.of_same {α β : Type} {r : Result α} {x : Result β} (hr : Leads D limit ks d r t)
    (h : t.Same u) (hok : ∀ b, x = .ok b → ∃ a, r = .ok a)
    (herror : ∀ f, x = .error f → r = .error f ∨ ¬ f.IsReentry) : Leads D limit ks d x u := by
  refine ⟨hr.nests.of_same h, fun hks b hb => ?_, fun hD f hf => ?_⟩
  · obtain ⟨a, ha⟩ := hok b hb
    exact (hr.going hks a ha).of_same h
  · exact (herror f hf).elim (hr.fault hD f) id

theorem not_isReentry_extract {target : Session.Target} {vs : List Value} {f : Fault}
    (hf : target.extract vs = .error f) : ¬ f.IsReentry := by
  rintro ⟨st, k, rfl⟩
  rw [Session.Target.extract.eq_def] at hf
  split at hf <;> cases hf

theorem not_isReentry_load {e : Session.Deferred} {loaded : Entries} {h : Heap} {f : Fault}
    (hf : (e.load loaded h).1 = .error f) : ¬ f.IsReentry := by
  rw [Session.Deferred.load] at hf
  split at hf
  · cases hf
  · split at hf
    · cases hf
    · rename_i g hg
      cases hf
      exact not_isReentry_extract hg

theorem not_isReentry_loadAll {es : List Session.Deferred} {loaded : Entries} {h : Heap}
    {f : Fault} (hf : (Session.Deferred.loadAll loaded es h).1 = .error f) : ¬ f.IsReentry := by
  induction es generalizing h with
  | nil => cases hf
  | cons e es ih =>
    have hload : ∀ g, (e.load loaded h).1 = .error g → ¬ g.IsReentry :=
      fun _ => not_isReentry_load
    rw [Session.Deferred.loadAll] at hf
    generalize e.load loaded h = x at hf hload
    rcases x with ⟨_ | ⟨⟩, h'⟩
    · exact hload f hf
    · exact ih hf

/-- Queries that the session holds nothing for are answered among the keys `ks`. -/
def Settles (D : DataSource τ) (limit : Nat) (ks : List Key) (nested : Answering (Watched τ)) :
    Prop :=
  ∀ q k (s : State (Watched τ)), s.Nests limit ks ks.length → s.Going →
    s.session.loaded.get? k = none →
    ∃ reply t, nested q k false s = some (reply, t) ∧
      Leads D limit ks ks.length reply.result t

theorem Leads.settle {reply : Reply} (hr : Leads D limit ks d reply.result t) (n : NestedSelect)
    (o : ObjId) :
    Leads D limit ks d (n.settle o (reply, t)).1 (n.settle o (reply, t)).2 := by
  rw [NestedSelect.settle]
  cases hres : reply.result with
  | error f =>
    rw [hres] at hr
    refine hr.of_same (.refl t) (fun _ hb => (by cases hb)) fun g hg => .inl ?_
    cases hg
    rfl
  | ok vs =>
    rw [hres] at hr
    have hbind : (Except.ok vs : Result (List Value)).bind n.target.extract =
        n.target.extract vs := rfl
    rw [hbind]
    cases hext : n.target.extract vs with
    | error f =>
      refine hr.of_same (.refl t) (fun _ hb => (by cases hb)) fun g hg => .inr ?_
      cases hg
      exact not_isReentry_extract hext
    | ok v =>
      exact hr.of_same ⟨rfl, rfl, rfl⟩ (fun _ _ => ⟨vs, rfl⟩) fun _ hg => (by cases hg)

section Nested

variable {H : ComponentHash} {ns : String → List NestedSelect} {j : Key}
  {nested : Answering (Watched τ)} (hn : Settles D limit ks nested) (hks : ks ≠ [])

include hn

include hks

end Nested

theorem Nests.mark {k : Key} (hs : s.Nests limit ks d) (hk : k ∉ ks)
    (hasked : k ∈ askedKeys s.steps) : (s.mark k).Nests limit (k :: ks) d := by
  refine ⟨List.nodup_cons.2 ⟨hk, hs.distinct⟩, hs.depth, fun j => ?_, fun j hj => ?_, hs.orderly,
    hs.stopped⟩
  · change (s.session.loaded.insert k .loading).get? j = _ ↔ _
    by_cases hj : j = k
    · subst hj
      simp
    · rw [Table.get?_insert_of_ne _ _ hj, hs.loading, List.mem_cons]
      simp [hj]
  · rcases List.mem_cons.1 hj with rfl | hj
    · exact hasked
    · exact hs.asked j hj

theorem Nests.unmark {k : Key} (hs : s.Nests limit (k :: ks) d) :
    (s.unmark k).Nests limit ks d := by
  obtain ⟨hk, hks⟩ := List.nodup_cons.1 hs.distinct
  refine ⟨hks, hs.depth, fun j => ?_, fun j hj => hs.asked j (List.mem_cons_of_mem _ hj),
    hs.orderly, hs.stopped⟩
  change (s.session.loaded.erase k).get? j = _ ↔ _
  by_cases hj : j = k
  · subst hj
    simp [hk]
  · rw [Table.get?_erase_of_ne _ hj, hs.loading, List.mem_cons]
    simp [hj]

theorem Nests.keepRows {k : Key} (hs : s.Nests limit ks d) (hk : k ∉ ks) (vs : List Value) :
    (s.keepRows k vs).Nests limit ks d := by
  refine ⟨hs.distinct, hs.depth, fun j => ?_, hs.asked, hs.orderly, hs.stopped⟩
  change (s.session.loaded.insert k (.rows vs)).get? j = _ ↔ _
  by_cases hj : j = k
  · subst hj
    simp [hk]
  · rw [Table.get?_insert_of_ne _ _ hj, hs.loading]

theorem Going.mark (hs : s.Going) (k : Key) : (s.mark k).Going := by
  refine ⟨fun j hj => ?_, hs.running⟩
  change (s.session.loaded.insert k .loading).contains j = true
  rw [Table.contains]
  by_cases hjk : j = k
  · subst hjk
    simp
  · rw [Table.get?_insert_of_ne _ _ hjk]
    exact hs.kept j hj

/-- The data source is asked for the rows of the innermost key. -/
theorem Nests.loaded {k : Key} (hs : s.Nests limit (k :: ks) d) (hgoing : s.Going)
    (hk : k ∉ loadedKeys s.steps) (hsession : t.session = s.session)
    (hsteps : t.steps = .loaded k :: s.steps) (hstopped : t.stopped = s.stopped) :
    t.Nests limit (k :: ks) d ∧ t.Going := by
  have hasked : askedKeys t.steps = askedKeys s.steps := by
    rw [hsteps]
    rfl
  have hcount : count t.steps = count s.steps := congrArg (fun l => l.dedup.length) hasked
  have hloaded : loadedKeys t.steps = k :: loadedKeys s.steps := by
    rw [hsteps]
    rfl
  refine ⟨⟨hs.distinct, ?_, ?_, ?_, ⟨?_, fun j e held hj => ?_⟩, ?_⟩, fun j hj => ?_, ?_⟩
  · rw [hsession]
    exact hs.depth
  · rw [hsession]
    exact hs.loading
  · rw [hasked]
    exact hs.asked
  · rw [hloaded]
    exact List.nodup_cons.2 ⟨hk, hs.orderly.once⟩
  · rw [hsteps] at hj
    rw [hcount]
    rcases List.mem_cons.1 hj with hj | hj
    · cases hj
    · exact hs.orderly.asked j e held hj
  · rw [hstopped, hcount]
    exact hs.stopped
  · rw [hsession]
    rw [hloaded] at hj
    rcases List.mem_cons.1 hj with rfl | hj
    · rw [Table.contains, (hs.loading j).2 List.mem_cons_self]
      rfl
    · exact hgoing.kept j hj
  · exact hstopped.trans hgoing.running

/-- A query that is asked for among the keys `ks` and may be answered there: its key is neither
loading nor loaded. Rows are handed over one by one only if nothing is around the query. -/
structure Enters (limit : Nat) (ks : List Key) (d : Nat) (k : Key) (handled : Bool)
    (s : State (Watched τ)) : Prop where
  nests : s.Nests limit ks d
  going : s.Going
  asked : k ∈ askedKeys s.steps
  idle : k ∉ ks
  unloaded : k ∉ loadedKeys s.steps
  first : ks = [] → loadedKeys s.steps = []
  handled : handled = true → ks = []

theorem Enters.of_same {k : Key} {handled : Bool} (hs : s.Enters limit ks d k handled)
    (h : s.Same t) : t.Enters limit ks d k handled := by
  refine ⟨hs.nests.of_same h, hs.going.of_same h, ?_, hs.idle, ?_, ?_, hs.handled⟩
  · rw [h.steps]
    exact hs.asked
  · rw [h.steps]
    exact hs.unloaded
  · rw [h.steps]
    exact hs.first

section Answer

variable {H : ComponentHash} {ns : String → List NestedSelect} {k : Key} {handled : Bool}
  {nested : Answering (Watched τ)} (hn : Settles D limit (k :: ks) nested)

include hn

omit hn

/-- What is left to do when the outermost query is answered. -/
theorem Leads.finish {reply : Reply} (ht : Leads D limit [] 0 reply.result t) :
    Leads D limit [] 0 (t.finish reply).1.result (t.finish reply).2 := by
  rw [State.finish]
  cases hres : reply.result with
  | error f =>
    have hdropped : t.Same { t with session := { t.session with deferred := [] } } :=
      ⟨rfl, rfl, rfl⟩
    exact ht.of_same hdropped (fun _ hb => ⟨_, hb⟩) fun _ hg => .inl hg
  | ok vs =>
    have hdrain : t.Same t.drain.2 := ⟨rfl, rfl, rfl⟩
    have hfault : ∀ f, t.drain.1 = .error f → ¬ f.IsReentry := fun f => not_isReentry_loadAll
    have hclear : ∀ u : State (Watched τ), u.Nests limit [] 0 → u.clearLoaded.Nests limit [] 0 := by
      intro u hu
      refine ⟨hu.distinct, ?_, ?_, hu.asked, hu.orderly, hu.stopped⟩
      · rw [State.clearLoaded, Session.clearLoaded]
        dsimp only
        split <;> exact hu.depth
      · rw [State.clearLoaded, Session.clearLoaded]
        dsimp only
        split
        · exact hu.loading
        · simp
    dsimp only
    refine ⟨?_, fun hks => absurd rfl hks, fun _ f hf => ?_⟩
    · split
      · exact hclear _ (ht.nests.of_same hdrain)
      · exact ht.nests.of_same hdrain
    · refine hfault f ?_
      cases hx : t.drain.1 with
      | error g =>
        rw [hx] at hf
        cases hf
        rfl
      | ok u =>
        rw [hx] at hf
        cases hf

include hn

end Answer

/-- A query that is asked for. -/
theorem Nests.ask {k : Key} {handled : Bool} (hs : s.Nests limit ks ks.length) (hgoing : s.Going)
    (hk : k ∉ ks) (hunloaded : k ∉ loadedKeys s.steps) (hfirst : ks = [] → loadedKeys s.steps = [])
    (hhandled : handled = true → ks = []) :
    (s.ask k).Enters limit ks ks.length k handled ∧ ks.length < count (s.ask k).steps := by
  have hsteps : (s.ask k).steps =
      .asked k s.session.depth (s.session.loaded.get? k) :: s.steps := rfl
  have hasked : ∀ j, j ∈ askedKeys (s.ask k).steps ↔ j = k ∨ j ∈ askedKeys s.steps := by
    intro j
    rw [hsteps]
    exact List.mem_cons
  have hmore : count s.steps ≤ count (s.ask k).steps := by
    rw [hsteps]
    exact count_le_asked _ _ _ _
  have hcount : ks.length < count (s.ask k).steps := by
    refine length_le_count (List.nodup_cons.2 ⟨hk, hs.distinct⟩) fun j hj => (hasked j).2 ?_
    exact (List.mem_cons.1 hj).imp_right (hs.asked j)
  refine ⟨⟨⟨hs.distinct, hs.depth, hs.loading, fun j hj => (hasked j).2 (.inr (hs.asked j hj)),
    ⟨hs.orderly.once, fun j e held hj => ?_⟩, fun ht => ?_⟩, ⟨hgoing.kept, hgoing.running⟩,
    (hasked k).2 (.inl rfl), hk, hunloaded, hfirst, hhandled⟩, hcount⟩
  · rw [hsteps] at hj
    rcases List.mem_cons.1 hj with hj | hj
    · cases hj
      refine ⟨fun hloading => hk ((hs.loading k).1 hloading), ?_⟩
      rw [hs.depth]
      exact hcount
    · obtain ⟨hheld, hdepth⟩ := hs.orderly.asked j e held hj
      exact ⟨hheld, Nat.lt_of_lt_of_le hdepth hmore⟩
  · exact Nat.lt_of_lt_of_le (hs.stopped ht) hmore

end State

open State

variable {H : ComponentHash} {D : DataSource τ} {ns : String → List NestedSelect}

namespace State

variable {s : State τ}

end State

/-- A query from outside, under a key that is given or made by the session. -/
theorem perform_query {env : Env τ} {limit : Nat} {q : Query} {key : Option Key} {k : Key}
    {handled : Bool} {s : State τ} (hk : key.elim (s.key env.hash q) .ok = .ok k) :
    env.perform limit (.query q key handled) s = env.answer limit q k handled s := by
  cases key with
  | some j =>
    cases hk
    rfl
  | none =>
    have hk' : s.key env.hash q = .ok k := hk
    rw [Env.perform, Call.run, hk']

/-- A query for a row that has itself as a property. -/
def selfQuery : Statement :=
  { Statement.make .select "A.q" "SELECT 1" with parameters := [⟨"id", .input⟩] }

def selfSelects : String → List NestedSelect := fun _ => [⟨"self", "id", selfQuery, .single⟩]

def selfKey : Key :=
  Session.keyOf flatHash .empty .standard (.ofStatement selfQuery (.int 1) .unbounded)

def newState : State Unit := ⟨.ofConfig .standard, ⟨.empty, .empty, 0, ()⟩⟩

end ResultCache
