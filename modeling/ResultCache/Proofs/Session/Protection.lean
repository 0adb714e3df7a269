import ResultCache.Proofs.Cache.Build
import ResultCache.Proofs.Session.Diary
import ResultCache.Proofs.Value.Normalising

/-!
# Callers cannot change what was published

A shared cache that hands out copies keeps rows as bytes. From the moment they are published nothing
that callers do to objects reaches them: every run is served the rows as they were then
(`published_rows_protected`). A key is served without rows only if a session published that it has
none: its buffer had missed the key and held no rows for it.

But rows become bytes only when they are published, and until then the buffer of the session has the
very objects that the query returned. What callers do to these in between is published too. And a
store of another kind keeps objects, also for a cache that is to hand out copies
(`rows_exposed_to_callers`).
-/
namespace ResultCache

/-- The objects that published rows lead to exist, and they are published as they were in `h`. -/
structure Publication.Untouched (p : Publication) (h : Heap) (K : ObjId → Prop) : Prop where
  region : h.Region K
  rows : ∀ v ∈ p.rows, v.Within K
  length : p.rows.length < 2 ^ 64
  same : Heap.AgreeOn K h p.heap

/-- A reader of coded rows gets new objects that look as the rows did. -/
theorem Publication.Untouched.shown {p : Publication} {h h' : Heap} {K : ObjId → Prop}
    {vs : List Value} (hp : p.Untouched h K) (hshows : (p.entry true).Shows (.rows vs) h') :
    vs.map h'.freeze = p.rows.map h.freeze := by
  have hK : p.heap.Region K := hp.region.of_agreeOn hp.same
  have hsame : p.rows.map p.heap.freeze = p.rows.map h.freeze :=
    Heap.map_freeze_congr hp.region hp.same hp.rows
  have hdecode := p.heap.decodeRows_encodeRows hK hp.rows hp.length
  have hregular := p.heap.freezeRows_regular hK hp.rows
  generalize hx : Entry.rows vs = x at hshows
  cases hshows with
  | same => cases hx
  | copied h₀ he hfs =>
    cases he
    rw [hdecode] at hfs
    cases hfs
    cases hx
    exact (Frozen.made_thawAll hregular h₀).freeze.trans hsame

namespace Entry

/-- A query that finds the entry in a shared cache can be answered like this. -/
def Answers (e : Entry) (vs : List Value) (h : Heap) : Prop :=
  (e = .absence ∧ vs = []) ∨ e.Shows (.rows vs) h

/-- There are no objects in it. -/
def Lifeless (e : Entry) : Prop := ∀ vs, e ≠ .rows vs

/-- Who is shown rows by an entry without objects is shown what its bytes say. -/
theorem Shows.freeze {e : Entry} {vs : List Value} {h : Heap} (he : e.Lifeless)
    (hshows : e.Shows (.rows vs) h) :
    ∃ bs, e = .encoded bs ∧ Frozen.decodeRows bs = .ok (vs.map h.freeze) := by
  generalize hx : Entry.rows vs = x at hshows
  cases hshows with
  | same => exact absurd hx.symm (he vs)
  | copied h₀ hbs hfs =>
    cases hx
    have hmade := Frozen.made_thawAll (Frozen.regular_of_decodeRows hfs) h₀
    exact ⟨_, hbs, by rw [hmade.freeze, hfs]⟩

/-- All answers from an entry without objects look alike, whatever objects are like. -/
theorem Answers.alike {e : Entry} {vs ws : List Value} {h i : Heap} (he : e.Lifeless)
    (hvs : e.Answers vs h) (hws : e.Answers ws i) : vs.map h.freeze = ws.map i.freeze := by
  rcases hvs with ⟨rfl, rfl⟩ | hvs
  · rcases hws with ⟨-, rfl⟩ | hws
    · rfl
    · obtain ⟨bs, hbs, -⟩ := hws.freeze he
      cases hbs
  · obtain ⟨bs, rfl, hdecode⟩ := hvs.freeze he
    rcases hws with ⟨hbs, -⟩ | hws
    · cases hbs
    · obtain ⟨bs', hbs, hdecode'⟩ := hws.freeze he
      cases hbs
      rw [hdecode] at hdecode'
      exact Except.ok.inj hdecode'

end Entry

/-- Values that look like this can be served for a key since `past`: there are none, and a session
published that; or they look like rows that were published at any moment since which none of their
objects was changed before they were published. -/
def Log.Explains (L past : Log) (r : CacheRef) (k : Key) (fs : List Frozen) : Prop :=
  (fs = [] ∧ L.Denies r k) ∨
    ∃ (p : Publication) (later earlier : Log), L = later ++ p.event :: earlier ∧
      p.Puts r k (earlier ++ past) ∧ ∀ h K, p.Untouched h K → fs = p.rows.map h.freeze

theorem Log.not_explains_nil (past : Log) (r : CacheRef) (k : Key) (fs : List Frozen) :
    ¬ Log.Explains [] past r k fs := by
  rintro (⟨-, i, bs, h, hmem, -⟩ | ⟨p, later, earlier, hL, -⟩)
  · cases hmem
  · exact absurd hL (by simp)

namespace Start

variable {G : Start} {r : CacheRef} {k : Key} {L : Log} {e : Entry}

/-- What a shared cache has was there at the start, or it was published. -/
theorem Stocked.published_or (he : G.Stocked r k L e) :
    G.had r k e ∨ (e = .absence ∧ L.Denies r k) ∨
      ∃ (p : Publication) (later earlier : Log), L = later ++ p.event :: earlier ∧
        p.Puts r k (earlier ++ G.past) ∧ e = p.entry (G.coded r) := by
  cases hrows : e.bearsRows with
  | true =>
    obtain hhad | ⟨later, p, earlier, hL, hp, rfl, -⟩ := he.origin hrows
    · exact .inl hhad
    · exact .inr (.inr ⟨p, later, earlier, hL, hp, rfl⟩)
  | false => exact (he.denies hrows).imp_right .inl

/-- What is published in a cache that copies has no objects. -/
theorem Stocked.lifeless (he : G.Stocked r k L e) (hcoded : G.coded r = true) :
    G.had r k e ∨ e.Lifeless := by
  obtain hhad | ⟨rfl, -⟩ | ⟨p, -, -, -, -, rfl⟩ := he.published_or
  · exact .inl hhad
  · exact .inr fun vs => by simp
  · rw [hcoded]
    exact .inr fun vs => by simp [Publication.entry, Entry.kept]

/-- What a query is answered with from a cache that copies was there at the start, or it is
explained by what was published. -/
theorem Stocked.explains (he : G.Stocked r k L e) (hcoded : G.coded r = true) {vs : List Value}
    {h : Heap} (hvs : e.Answers vs h) : G.had r k e ∨ L.Explains G.past r k (vs.map h.freeze) := by
  refine he.published_or.imp_right ?_
  rintro (⟨rfl, hdenies⟩ | ⟨p, later, earlier, hL, hp, rfl⟩)
  · obtain ⟨-, rfl⟩ | hshows := hvs
    · exact .inl ⟨rfl, hdenies⟩
    · cases hshows.bearsRows
  · rw [hcoded] at hvs
    obtain ⟨habsence, -⟩ | hshows := hvs
    · simp [Publication.entry, Entry.kept] at habsence
    · exact .inr ⟨p, later, earlier, hL, hp, fun h K huntouched => huntouched.shown hshows⟩

/-- If only sessions write to shared caches, a query is answered with what the cache has. -/
theorem Answered.found {after : Log} {i : Nat} {vs : List Value} {h : Heap} (hclosed : G.closed)
    (hL : G.Answered (after ++ (i, .answers k (some r) vs h) :: L)) :
    ∃ e, G.Stocked r k L e ∧ e.Answers vs h := by
  obtain ⟨hvs, hlacks⟩ | ⟨e, he, hshows⟩ := hL.backed
  · exact ⟨.absence, hlacks hclosed, .inl ⟨rfl, hvs⟩⟩
  · exact ⟨e, he, .inr hshows⟩

end Start

namespace System

variable {τ : Type} {env : Nat → Env τ} {S₀ S T : System τ} {G : Start} {L more after before : Log}
  {r : CacheRef} {k : Key}

/-- From any moment on queries are answered from a shared cache with what it has at that moment or
what is published since. -/
theorem Accounted.found (hS : S.Accounted G L) (hT : S.Journal env more T) {j : Nat}
    {vs : List Value} {h : Heap} (hmore : more = after ++ (j, .answers k (some r) vs h) :: before) :
    ∃ e, (S.world.pool.start True (L ++ G.past)).Stocked r k before e ∧ e.Answers vs h := by
  have hnew : S.Accounted (S.world.pool.start True (L ++ G.past)) [] :=
    ⟨hS.depth, fun i => (hS.state i).anew True⟩
  have hruns := hnew.runs (fun _ _ => Pool.Fades.wanes) (fun _ _ _ => id) hT
  rw [List.append_nil, hmore] at hruns
  exact (hruns.state j).answered.found trivial

/-- The layers of a shared cache stay, so a cache that copies goes on copying. -/
theorem Accounted.coded (hS : S.Accounted (S₀.world.pool.start True []) L) (past : Log)
    (r : CacheRef) :
    (S.world.pool.start True past).coded r = (S₀.world.pool.start True []).coded r :=
  congrArg (storesCoded false) ((hS.state 0).caches r).layers

theorem Fresh.not_had (h₀ : S₀.Fresh) (r : CacheRef) (k : Key) (e : Entry) :
    ¬ (S₀.world.pool.start True []).had r k e := by
  rintro ⟨he, -⟩
  rw [h₀.caches r k] at he
  cases he

/-- Rows that were published in a shared cache that copies are safe from callers. Whatever a query
is answered with from the cache looks like the rows of some publication at any moment since which
none of their objects was changed before they were published, the return of the query that loaded
them among these moments. It is answered otherwise only with no rows, if a session published before
that there are none. And from any moment on all runs are answered with one and the same, which is
explained by what was published until then, or with what is published since, whatever is done to
objects in them. -/
theorem published_rows_protected (h₀ : S₀.Fresh) {r : CacheRef} {g : Registry} {now : Instant}
    {id : String} {config : Cache.Config}
    (hbuild : Cache.build now g id config = .ok (S₀.world.pool.get r))
    (hcopies : config.copies = true)
    (hstore : Text.upperAscii (config.store.getD "PERPETUAL") = "PERPETUAL")
    (hS : S₀.Journal env L S) :
    (∀ (after : Log) j k vs h' (before : Log),
      L = after ++ (j, .answers k (some r) vs h') :: before →
        before.Explains [] r k (vs.map h'.freeze)) ∧
    ∀ k, ∃ fs, ∀ (more : Log) T (after : Log) j vs h' (before : Log), S.Journal env more T →
      more = after ++ (j, .answers k (some r) vs h') :: before →
        (vs.map h'.freeze = fs ∧ L.Explains [] r k fs) ∨
          before.Explains L r k (vs.map h'.freeze) := by
  have hstart := h₀.sessions.accounted True
  have haccounted := hS.accounted h₀.sessions
  have hcoded : (S₀.world.pool.start True []).coded r = true := by
    have hcopying := Cache.copying_of_build hbuild hcopies hstore
    simpa [Start.coded, Pool.start, storesCoded] using hcopying
  have hcoded' : (S.world.pool.start True L).coded r = true :=
    (haccounted.coded L r).trans hcoded
  have hstocked : ∀ {k e}, (S.world.pool.get r).store.entries.get? k = some e →
      (S₀.world.pool.start True []).Stocked r k L e :=
    fun he => ((haccounted.state 0).caches r).stored _ _ he (.inr trivial)
  have hfound : ∀ {more after before : Log} {T j k ws h'}, S.Journal env more T →
      more = after ++ (j, .answers k (some r) ws h') :: before →
        (∃ e, (S.world.pool.get r).store.entries.get? k = some e ∧ e.Answers ws h') ∨
          before.Explains L r k (ws.map h'.freeze) := by
    intro more after before T j k ws h' hT hmore
    have hpast : L ++ (S₀.world.pool.start True []).past = L := List.append_nil L
    obtain ⟨e, he, hws⟩ := haccounted.found hT hmore
    rw [hpast] at he
    exact (he.explains hcoded' hws).imp_left fun hhad => ⟨e, hhad.1, hws⟩
  refine ⟨fun after j k vs h' before hL => ?_, fun k => ?_⟩
  · obtain ⟨e, he, hvs⟩ := hstart.found hS hL
    exact (he.explains hcoded hvs).resolve_left (h₀.not_had r _ _)
  · -- what one run is served of what the cache has now, all are
    by_cases hserved : ∃ e vs h, (S.world.pool.get r).store.entries.get? k = some e ∧
      e.Answers vs h
    · obtain ⟨e, vs, h, he, hvs⟩ := hserved
      refine ⟨vs.map h.freeze, fun more T after j ws h' before hT hmore => ?_⟩
      refine (hfound hT hmore).imp_left ?_
      rintro ⟨e', he', hws⟩
      rw [he] at he'
      cases he'
      exact ⟨hws.alike (((hstocked he).lifeless hcoded).resolve_left (h₀.not_had r _ _)) hvs,
        ((hstocked he).explains hcoded hvs).resolve_left (h₀.not_had r _ _)⟩
    · refine ⟨[], fun more T after j ws h' before hT hmore => (hfound hT hmore).imp_left ?_⟩
      rintro ⟨e', he', hws⟩
      exact absurd ⟨e', ws, h', he', hws⟩ hserved

end System

/-- The properties of all objects at the moment. -/
def Happening.objects : Happening → List (List (String × Value))
  | .answers _ _ _ h | .publishes _ h => h.records.toList.map (·.entries)
  | _ => []

theorem Heap.record?_of_single {h : Heap} {r : Record}
    (hr : h.records.toList.map (·.entries) = [r.entries]) : h.record? ⟨0⟩ = some r := by
  obtain ⟨r', hrecords, hentries⟩ := List.map_eq_singleton_iff.1 hr
  rw [record?, ← Array.getElem?_toList, hrecords, ← NameMap.ext_entries hentries]
  rfl

/-- The objects of a heap with one object, without references, are untouched as long as that object
has the same properties. -/
theorem Publication.Untouched.of_single {p : Publication} {h : Heap} {r : Record}
    (hr : Record.Within (fun _ => False) r) (hrows : p.rows = [.object ⟨0⟩])
    (hthen : h.records.toList.map (·.entries) = [r.entries])
    (hnow : p.heap.records.toList.map (·.entries) = [r.entries]) : p.Untouched h (· = ⟨0⟩) where
  region := by
    rintro o rfl
    exact ⟨r, Heap.record?_of_single hthen, hr.mono fun _ ho => ho.elim⟩
  rows := by
    rw [hrows]
    rintro v hv
    cases List.mem_singleton.1 hv
    exact .object rfl
  length := by
    rw [hrows]
    decide
  same := by
    rintro o rfl
    rw [Heap.record?_of_single hthen, Heap.record?_of_single hnow]

namespace System

/-- The row of the data source has no references. -/
theorem within_row : Record.Within (fun _ => False) (.ofList [("id", .int 1)]) where
  length := by decide
  names p hp := by
    cases List.mem_singleton.1 hp
    decide
  values p hp := by
    cases List.mem_singleton.1 hp
    exact .int 1

theorem build_newSystem :
    Cache.build 0 .standard "b" .standard = .ok (newSystem.world.pool.get ⟨0⟩) := by
  rfl

/-- A session commits the row that it loaded, and then its caller changes the object. Another
session gets the row as it was. -/
theorem published_rows_protected_newSystem :
    ∃ L S more T, newSystem.Journal (fun _ => rowEnv) L S ∧ S.Journal (fun _ => rowEnv) more T ∧
      T.heap.read ⟨0⟩ "id" = some (.int 2) ∧
      ∃ vs h', (1, .answers rowKey (some ⟨0⟩) vs h') ∈ more ∧
        ∃ p : Publication, p.Occurs L ⟨0⟩ rowKey ∧
          vs.map h'.freeze = p.rows.map p.returned.freeze := by
  have hfirst : (newSystem.logs rowEnv 1 [.query 0 rowQuery (.int 1) .unbounded, .commit 0 true]
      []).map (fun p => (p.1.brief, p.1.map (·.2.objects))) =
        some ([(0, .publishes), (0, .answers rowKey none [.object [("id", .int 1)]]),
          (0, .loads rowKey [.object ⟨0⟩]), (0, .asks rowKey)],
          [[[("id", .int 1)]], [[("id", .int 1)]], [], []]) := by decide +kernel
  have hsecond : ((newSystem.logs rowEnv 1 [.query 0 rowQuery (.int 1) .unbounded, .commit 0 true]
      []).bind fun p => (p.2.logs rowEnv 1 [.write ⟨0⟩ "id" (.int 2),
        .query 1 rowQuery (.int 1) .unbounded] []).map fun q =>
          (q.1.brief, q.2.heap.read ⟨0⟩ "id")) =
      some ([(1, .answers rowKey (some ⟨0⟩) [.object [("id", .int 1)]])], some (.int 2)) := by
    decide +kernel
  obtain ⟨⟨L, S⟩, hlogs, hfirst⟩ := Option.map_eq_some_iff.1 hfirst
  rw [hlogs, Option.bind_some] at hsecond
  obtain ⟨⟨more, T⟩, hmore, hsecond⟩ := Option.map_eq_some_iff.1 hsecond
  obtain ⟨hbrief, hobjects⟩ := Prod.mk.inj hfirst
  obtain ⟨hbrief', hread⟩ := Prod.mk.inj hsecond
  obtain ⟨e, L₁, rfl, he, hL₁⟩ := Log.eq_cons_of_brief hbrief
  obtain ⟨e₁, L₂, rfl, he₁, hL₂⟩ := Log.eq_cons_of_brief hL₁
  obtain ⟨e₂, L₃, rfl, he₂, hL₃⟩ := Log.eq_cons_of_brief hL₂
  obtain ⟨e₃, L₄, rfl, he₃, hL₄⟩ := Log.eq_cons_of_brief hL₃
  obtain rfl := List.map_eq_nil_iff.1 hL₄
  obtain ⟨bs, h, rfl⟩ := Happening.eq_publishes he
  obtain ⟨ws, h₁, rfl, hws⟩ := Happening.eq_answers he₁
  obtain rfl := Happening.eq_loads he₂
  obtain rfl := Happening.eq_asks he₃
  obtain ⟨hnow, hrest⟩ := List.cons.inj hobjects
  obtain ⟨hthen, -⟩ := List.cons.inj hrest
  obtain ⟨e', rest, rfl, he', hrest'⟩ := Log.eq_cons_of_brief hbrief'
  obtain rfl := List.map_eq_nil_iff.1 hrest'
  obtain ⟨vs, h', rfl, hvs⟩ := Happening.eq_answers he'
  have hS := Journal.logs .start hlogs
  have hT := Journal.logs .start hmore
  obtain ⟨fs, hserved⟩ := (published_rows_protected initial_newSystem.fresh build_newSystem rfl
    (by decide) hS).2 rowKey
  obtain ⟨hsame, hexplains⟩ := (hserved _ T [] 1 vs h' [] hT rfl).resolve_right
    (Log.not_explains_nil _ _ _ _)
  obtain ⟨hnone, -⟩ | ⟨p, later, earlier, hL, hp, huntouched⟩ := hexplains
  · rw [hsame.trans hnone] at hvs
    cases hvs
  · rw [List.append_nil] at hp
    have hp : p.Occurs _ ⟨0⟩ rowKey := ⟨later, earlier, hL, hp⟩
    clear hL hserved
    obtain ⟨hevent, hanswers, hloads⟩ := hp.mem
    have hrows : p.rows = [.object ⟨0⟩] := by simp_all
    have hreturned : p.returned = h₁ := by simp_all
    have hheap : p.heap = h := by simp_all [Publication.event]
    have hsingle : p.Untouched p.returned (· = ⟨0⟩) :=
      .of_single within_row hrows (hreturned ▸ hthen) (hheap ▸ hnow)
    exact ⟨_, S, _, T, hS, hT, hread, vs, h', List.mem_cons_self, p, hp,
      hsame.trans (huntouched _ _ hsingle)⟩

/-- A store of another kind, which a cache over it leaves to itself. -/
def shelves : Registry := Registry.standard.register "SHELF" (.store .perpetual)

def shelfConfig : Cache.Config := { Cache.Config.standard with store := some "SHELF" }

def shelfSystem : System Unit :=
  ⟨fun _ => .ofConfig .standard, ⟨.empty, .single (Cache.build 0 shelves "b" shelfConfig), 0, ()⟩⟩

/-- A session loads a row and its caller changes the object before the commit. Another session gets
the changed row. Without the change it would have got the row as it was loaded. And over a store of
another kind a change after the commit is enough, though the cache was to hand out copies. Nor is
the row safe from sessions that publish its absence: one of them loads it and drops it again for a
change of data, so that its buffer has missed the key and has no rows. Then no object was changed
and nobody gets the row. -/
theorem rows_exposed_to_callers :
    (Cache.Config.standard.copies = true ∧
      Cache.build 0 .standard "b" .standard = .ok (newSystem.world.pool.get ⟨0⟩) ∧
      (∃ L S, newSystem.logs rowEnv 1 [.query 0 rowQuery (.int 1) .unbounded,
          .write ⟨0⟩ "id" (.int 2), .commit 0 true, .query 1 rowQuery (.int 1) .unbounded] [] =
            some (L, S) ∧
        L.brief = [(1, .answers rowKey (some ⟨0⟩) [.object [("id", .int 2)]]), (0, .publishes),
          (0, .answers rowKey none [.object [("id", .int 1)]]), (0, .loads rowKey [.object ⟨0⟩]),
          (0, .asks rowKey)]) ∧
      ∃ L S, newSystem.logs rowEnv 1 [.query 0 rowQuery (.int 1) .unbounded, .commit 0 true,
          .query 1 rowQuery (.int 1) .unbounded] [] = some (L, S) ∧
        L.brief = [(1, .answers rowKey (some ⟨0⟩) [.object [("id", .int 1)]]), (0, .publishes),
          (0, .answers rowKey none [.object [("id", .int 1)]]), (0, .loads rowKey [.object ⟨0⟩]),
          (0, .asks rowKey)]) ∧
    shelfConfig.copies = true ∧
    Cache.build 0 shelves "b" shelfConfig = .ok (shelfSystem.world.pool.get ⟨0⟩) ∧
    (∃ L S, shelfSystem.logs rowEnv 1 [.query 0 rowQuery (.int 1) .unbounded, .commit 0 true,
        .write ⟨0⟩ "id" (.int 2), .query 1 rowQuery (.int 1) .unbounded] [] = some (L, S) ∧
      L.brief = [(1, .answers rowKey (some ⟨0⟩) [.object [("id", .int 2)]]), (0, .publishes),
        (0, .answers rowKey none [.object [("id", .int 1)]]), (0, .loads rowKey [.object ⟨0⟩]),
        (0, .asks rowKey)]) ∧
    ∃ L S, newSystem.logs rowEnv 1 [.query 0 rowQuery (.int 1) .unbounded, .commit 0 true,
        .update 2 rowUpdate .null, .commit 2 true, .query 2 rowQuery (.int 1) .unbounded,
        .update 2 rowUpdate .null, .commit 2 true, .query 3 rowQuery (.int 1) .unbounded] [] =
          some (L, S) ∧
      L.brief = [(3, .answers rowKey (some ⟨0⟩) []), (2, .publishes), (2, .updates ⟨0⟩),
        (2, .answers rowKey none [.object [("id", .int 1)]]), (2, .loads rowKey [.object ⟨1⟩]),
        (2, .asks rowKey), (2, .publishes), (2, .updates ⟨0⟩), (0, .publishes),
        (0, .answers rowKey none [.object [("id", .int 1)]]), (0, .loads rowKey [.object ⟨0⟩]),
        (0, .asks rowKey)] := by
  refine ⟨⟨rfl, build_newSystem, exists_log_of_brief ?_, exists_log_of_brief ?_⟩, rfl, rfl,
    exists_log_of_brief ?_, exists_log_of_brief ?_⟩ <;> decide +kernel

end System

end ResultCache
