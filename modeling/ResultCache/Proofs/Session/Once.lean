import ResultCache.Proofs.Session.StatementScope
import ResultCache.Proofs.Session.Story

/-!
# A key is loaded once

Between two events that empty it, a session with nested selects loads a key at most once: when rows
have been loaded for a key, the data source is not asked for that key again
(`loaded_key_not_asked_again`). A stretch is any number of calls that empty nothing, each in
whatever world the other sessions have left (`Session.Stretch`). Attempts that fail may come before,
at any depth, and so may answers from shared caches.

While a query runs its key is marked, so nothing inside it loads the key; and once its rows are
kept, nothing inside an outer query drops them. Both are parts of one invariant
(`Session.LoadedOnce`), which every move of the session keeps.
-/
namespace ResultCache

/-- Calls that neither empty a session nor ask for rows one by one. -/
def Call.Lasting (β : Type) (c : Call β) : Prop :=
  match c with
  | .query _ _ handled => handled = false
  | .key _ | .isLoaded _ | .defer _ | .isClosed | .config => True
  | _ => False

theorem NestedSelect.allowed_lasting : Allowed Call.Lasting :=
  ⟨fun _ _ => rfl, fun _ => trivial, fun _ => trivial, fun _ => trivial⟩

/-- A key is neither asked for nor loaded after it was loaded. -/
def LoadsOnce : List Happening → Prop
  | [] => True
  | .asks k :: past => (∀ vs, .loads k vs ∉ past) ∧ LoadsOnce past
  | .loads k _ :: past => (∀ vs, .loads k vs ∉ past) ∧ LoadsOnce past
  | _ :: past => LoadsOnce past

theorem LoadsOnce.tail {e : Happening} {past : List Happening} (h : LoadsOnce (e :: past)) :
    LoadsOnce past := by
  cases e with
  | asks k => exact h.2
  | loads k vs => exact h.2
  | _ => exact h

theorem LoadsOnce.not_later {later earlier : List Happening} {k : Key} {vs : List Value}
    (h : LoadsOnce (later ++ .loads k vs :: earlier)) :
    .asks k ∉ later ∧ ∀ ws, .loads k ws ∉ later := by
  induction later with
  | nil => exact ⟨List.not_mem_nil, fun _ => List.not_mem_nil⟩
  | cons e later ih =>
    obtain ⟨hasks, hloads⟩ := ih h.tail
    have hmem : .loads k vs ∈ later ++ .loads k vs :: earlier :=
      List.mem_append_right _ List.mem_cons_self
    refine ⟨fun hk => ?_, fun ws hk => ?_⟩
    · cases hk with
      | head => exact h.1 vs hmem
      | tail _ hk => exact hasks hk
    · cases hk with
      | head => exact h.1 vs hmem
      | tail _ hk => exact hloads ws hk

variable {τ : Type}

/-- Nothing that was loaded has been asked for again, it is all still held, and the keys `ks` that
are being loaded are marked. -/
structure Session.LoadedOnce (d : Nat) (ks : List Key) (L : List Happening) (s : Session) :
    Prop where
  scope : s.config.scope = .session
  depth : s.depth = d
  once : LoadsOnce L
  held : ∀ k vs, .loads k vs ∈ L → s.loaded.get? k = some (.rows vs)
  nodup : ks.Nodup
  marked : ∀ k ∈ ks, s.loaded.get? k = some .loading

namespace Session.LoadedOnce

variable {d : Nat} {ks : List Key} {L : List Happening} {s t : State τ} {k : Key}

theorem of_eq (hs : s.session.LoadedOnce d ks L) (hconfig : t.session.config = s.session.config)
    (hdepth : t.session.depth = s.session.depth) (hloaded : t.session.loaded = s.session.loaded) :
    t.session.LoadedOnce d ks L := by
  refine ⟨by rw [hconfig, hs.scope], by rw [hdepth, hs.depth], hs.once, fun k vs hk => ?_, hs.nodup,
    fun k hk => ?_⟩
  · rw [hloaded]
    exact hs.held k vs hk
  · rw [hloaded]
    exact hs.marked k hk

/-- The answer to a query changes nothing. -/
theorem answers (hs : s.session.LoadedOnce d ks L) (j : Key) (c : Option CacheRef)
    (vs : List Value) (h : Heap) : s.session.LoadedOnce d ks (.answers j c vs h :: L) := by
  refine ⟨hs.scope, hs.depth, hs.once, fun k ws hk => ?_, hs.nodup, hs.marked⟩
  cases hk with
  | tail _ hk => exact hs.held k ws hk

/-- A key that is loaded is not held as rows, so it was not loaded before. -/
theorem fresh (hs : s.session.LoadedOnce d ks L) (hfetches : s.fetches k false = true)
    (vs : List Value) : .loads k vs ∉ L := by
  intro hk
  rw [State.fetches, hs.held k vs hk] at hfetches
  cases hfetches

theorem mark (hs : s.session.LoadedOnce d ks L) (hfetches : s.fetches k false = true) :
    (s.mark k).session.LoadedOnce d (k :: ks) (.asks k :: L) := by
  have hfresh := hs.fresh hfetches
  have hk : k ∉ ks := by
    intro hk
    rw [State.fetches, hs.marked k hk] at hfetches
    cases hfetches
  refine ⟨hs.scope, hs.depth, ⟨hfresh, hs.once⟩, fun j vs hj => ?_, hs.nodup.cons hk,
    fun j hj => ?_⟩
  · cases hj with
    | tail _ hj =>
      have hne : j ≠ k := by
        rintro rfl
        exact hfresh vs hj
      rw [State.mark, Table.get?_insert_of_ne _ _ hne]
      exact hs.held j vs hj
  · cases hj with
    | head => exact Table.get?_insert_self _ _ _
    | tail _ hj =>
      have hne : j ≠ k := by
        rintro rfl
        exact hk hj
      rw [State.mark, Table.get?_insert_of_ne _ _ hne]
      exact hs.marked j hj

/-- A key that is marked was not loaded. -/
theorem not_loaded (hs : s.session.LoadedOnce d (k :: ks) L) (vs : List Value) :
    .loads k vs ∉ L := by
  intro hk
  have hloading := hs.marked k List.mem_cons_self
  rw [hs.held k vs hk] at hloading
  cases hloading

theorem unmark (hs : s.session.LoadedOnce d (k :: ks) L) :
    (s.unmark k).session.LoadedOnce d ks L := by
  obtain ⟨hk, hnodup⟩ := List.nodup_cons.1 hs.nodup
  refine ⟨hs.scope, hs.depth, hs.once, fun j vs hj => ?_, hnodup, fun j hj => ?_⟩
  · have hne : j ≠ k := by
      rintro rfl
      exact hs.not_loaded vs hj
    rw [State.unmark, Table.get?_erase_of_ne _ hne]
    exact hs.held j vs hj
  · have hne : j ≠ k := by
      rintro rfl
      exact hk hj
    rw [State.unmark, Table.get?_erase_of_ne _ hne]
    exact hs.marked j (List.mem_cons_of_mem _ hj)

theorem kept (hs : s.session.LoadedOnce d (k :: ks) L) (vs : List Value) :
    ((s.unmark k).keepRows k vs).session.LoadedOnce d ks (.loads k vs :: L) := by
  have hfresh := hs.not_loaded
  obtain ⟨hk, -⟩ := List.nodup_cons.1 hs.nodup
  have hu := hs.unmark
  refine ⟨hu.scope, hu.depth, ⟨hfresh, hu.once⟩, fun j ws hj => ?_, hu.nodup, fun j hj => ?_⟩
  · cases hj with
    | head => exact Table.get?_insert_self _ _ _
    | tail _ hj =>
      have hne : j ≠ k := by
        rintro rfl
        exact hfresh ws hj
      rw [State.keepRows, Table.get?_insert_of_ne _ _ hne]
      exact hu.held j ws hj
  · have hne : j ≠ k := by
      rintro rfl
      exact hk hj
    rw [State.keepRows, Table.get?_insert_of_ne _ _ hne]
    exact hu.marked j hj

/-- Setting the properties that wait, or dropping them, leaves the results of a session that keeps
them. -/
theorem finish (hs : s.session.LoadedOnce d ks L) (reply : Reply)
    (hrestores : s.Restores (s.finish reply).2) :
    (s.finish reply).2.session.LoadedOnce d ks L := by
  refine hs.of_eq hrestores.config hrestores.depth ?_
  cases hreply : reply.result with
  | error f => rw [State.finish_error hreply]
  | ok vs => exact State.loaded_finish hreply hs.scope

end Session.LoadedOnce

/-- Every move of a session with nested selects keeps the invariant. -/
theorem loadedOnce_follows (H : ComponentHash) (D : DataSource τ)
    (ns : String → List NestedSelect) :
    Follows (.nested H D ns) Call.Lasting (fun st => st.flushes = false)
      (fun d ks L s => s.session.LoadedOnce d ks L) fun _ _ _ => True where
  confined st rs := NestedSelect.confined_objects NestedSelect.allowed_lasting (ns st.id) rs
  quick := by
    intro β c d ks L s hc hquery hs
    cases c with
    | query q key handled => cases hquery
    | defer e =>
      obtain ⟨h, ds, hdefer⟩ := s.defer_deferred e
      rw [Call.after, hdefer]
      exact hs.of_eq rfl rfl rfl
    | key q => exact hs
    | isLoaded k => exact hs
    | isClosed => exact hs
    | config => exact hs
    | _ => exact hc.elim
  quiet hs hconfig hdepth hloaded _ _ := hs.of_eq hconfig hdepth hloaded
  flush st hs := by
    obtain ⟨bs, hflush⟩ := State.flush_buffers st _
    rw [hflush]
    exact hs.of_eq rfl rfl rfl
  read r k hs := hs.of_eq rfl rfl rfl
  served {_ _ _ s r k _ vs} hs _ _ := by
    have hread := hs.of_eq (t := (s.readShared r k).2) rfl rfl rfl
    exact hread.answers k (s.server r k) vs _
  answered h hs _ := hs.answers _ _ _ h
  put r hs _ := hs.of_eq rfl rfl rfl
  release r k hs := hs.of_eq rfl rfl rfl
  anew hopens hflushes _ := by
    rw [hopens] at hflushes
    cases hflushes
  enter hs := ⟨hs.scope, congrArg (· + 1) hs.depth, hs.once, hs.held, hs.nodup, hs.marked⟩
  leave hs := ⟨hs.scope, congrArg (· - 1) hs.depth, hs.once, hs.held, hs.nodup, hs.marked⟩
  finish reply hs :=
    hs.finish reply ((State.restores_tracks (.nested H D ns)).finish reply _ hs.depth)
  depth hs := hs.depth
  held _ _ _ := trivial
  mark hq hfetches hs := by
    obtain rfl : _ = false := hq
    exact hs.mark hfetches
  unmark hs := hs.unmark
  kept vs _ hs := hs.kept vs
  handed _ hq _ := by cases hq
  backs_loads _ _ _ := trivial

/-- Calls of a session from outside, one after the other, each in whatever world it finds, and what
happened in them. None of them empties the session. -/
inductive Session.Stretch (env : Env τ) (s₀ : Session) : List Happening → Session → Prop
  | start : Stretch env s₀ [] s₀
  | call {L : List Happening} {s : State τ} {limit : Nat} {β : Type} {c : Call β} {b : β}
    {t : State τ} : Stretch env s₀ L s.session → c.Lasting →
    Follows.Opening (fun st => st.flushes = false) c → env.perform limit c s = some (b, t) →
    Stretch env s₀ (env.tells limit c s ++ L) t.session

section Nested

variable {H : ComponentHash} {D : DataSource τ} {ns : String → List NestedSelect}

theorem Session.Stretch.loadedOnce {s₀ s : Session} {L : List Happening}
    (hs₀ : s₀.LoadedOnce 0 [] []) (hs : s₀.Stretch (.nested H D ns) L s) :
    s.LoadedOnce 0 [] L := by
  induction hs with
  | start => exact hs₀
  | call _ hc hopens hperform ih => exact (loadedOnce_follows H D ns).perform hc hopens hperform ih

/-- In a stretch of calls that empty nothing, a session that keeps its results completes at most one
load of a key, and after that the data source is not asked for the key again: the session still
holds the rows, whatever failed before, whatever the shared caches have, and at whatever depth the
key is asked for. -/
theorem loaded_key_not_asked_again {s₀ s : Session} {later earlier : List Happening} {k : Key}
    {vs : List Value} (hs₀ : s₀.Reached (.nested H D ns)) (hscope : s₀.config.scope = .session)
    (hs : s₀.Stretch (.nested H D ns) (later ++ .loads k vs :: earlier) s) :
    (.asks k ∉ later ∧ ∀ ws, .loads k ws ∉ later) ∧ s.loaded.get? k = some (.rows vs) := by
  have hstart : s₀.LoadedOnce 0 [] [] :=
    ⟨hscope, hs₀.idle.depth, trivial, fun _ _ hk => (by cases hk), .nil, fun _ hk => (by cases hk)⟩
  have honce := hs.loadedOnce hstart
  exact ⟨honce.once.not_later, honce.held k vs (List.mem_append_right _ List.mem_cons_self)⟩

end Nested

def authorKey : Key := Session.keyOf flatHash .empty .standard (askOne authorQuery)

/-- The shelf of an author is refused once, so the author is asked for again. The book of the author
is not. -/
theorem loaded_key_not_asked_again_readingRoom :
    ∃ later earlier s, (Session.ofConfig .standard).Stretch (readingRoom [3])
        (later ++ .loads bookKey [.object ⟨1⟩] :: earlier) s ∧
      .asks authorKey ∈ later ∧
      (.asks bookKey ∉ later ∧ ∀ ws, .loads bookKey ws ∉ later) ∧
      s.loaded.get? bookKey = some (.rows [.object ⟨1⟩]) := by
  let ask : Call Reply := .query (askOne authorQuery) none false
  have hrun : ((readingRoom [3]).perform 2 ask (countedState .standard)).bind (fun p =>
      ((readingRoom [3]).perform 2 ask p.2).map fun _ =>
        (decide (.loads bookKey [.object ⟨1⟩] ∈
            ((readingRoom [3]).tells 2 ask (countedState .standard)).map Happening.brief),
          decide (.asks authorKey ∈ ((readingRoom [3]).tells 2 ask p.2).map Happening.brief))) =
      some (true, true) := by cbv
  obtain ⟨⟨first, t⟩, hfirst, hrest⟩ := Option.bind_eq_some_iff.1 hrun
  obtain ⟨⟨second, u⟩, hsecond, hp⟩ := Option.map_eq_some_iff.1 hrest
  simp only [Prod.mk.injEq, decide_eq_true_eq] at hp
  obtain ⟨hloaded, hasked⟩ := hp
  obtain ⟨e, he, hbrief⟩ := List.mem_map.1 hloaded
  rw [Happening.eq_loads hbrief] at he
  obtain ⟨e', he', hbrief'⟩ := List.mem_map.1 hasked
  rw [Happening.eq_asks hbrief'] at he'
  obtain ⟨later, earlier, hlog⟩ := List.append_of_mem he
  have hone : (Session.ofConfig .standard).Stretch (readingRoom [3])
      ((readingRoom [3]).tells 2 ask (countedState .standard) ++ []) t.session :=
    .call (s := countedState .standard) .start rfl rfl hfirst
  have htwo := hone.call (c := ask) rfl rfl hsecond
  rw [List.append_nil, hlog, ← List.append_assoc] at htwo
  exact ⟨_, _, _, htwo, List.mem_append_left _ he',
    loaded_key_not_asked_again (.new .standard .insertion) rfl htwo⟩

end ResultCache
