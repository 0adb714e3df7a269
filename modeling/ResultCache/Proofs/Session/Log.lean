import ResultCache.Proofs.Cache.Stock
import ResultCache.Proofs.Session.Story

/-!
# What happened to many sessions

The log of many sessions lists what happened to each of them, the latest first (`Log`). Rows come
into a shared cache only by a session that publishes its buffers, and a session that changed data
clears the cache before it publishes. The absence of a key comes into it only by a session that
publishes a buffer which missed the key and has no rows for it (`Log.Denies`), if nobody but sessions
writes to the cache. So a log tells what a shared cache can have (`Start.Stocked`) and what a query
can be answered with (`Start.Answered`), relative to what was there when the log began (`Start`).
-/
namespace ResultCache

/-- Rows were loaded for a key, and nothing happened since for which `bar` holds. -/
def LoadedSince (bar : Happening → Prop) (l : List Happening) (k : Key) (vs : List Value) : Prop :=
  ∃ later earlier, l = later ++ .loads k vs :: earlier ∧ ∀ e ∈ later, ¬ bar e

namespace LoadedSince

variable {bar bar' : Happening → Prop} {l : List Happening} {k : Key} {vs : List Value}
  {e : Happening}

theorem loads (k : Key) (vs : List Value) : LoadedSince bar (.loads k vs :: l) k vs :=
  ⟨[], l, rfl, fun _ he => (by cases he)⟩

theorem cons (h : LoadedSince bar l k vs) (he : ¬ bar e) : LoadedSince bar (e :: l) k vs := by
  obtain ⟨later, earlier, rfl, hlater⟩ := h
  exact ⟨e :: later, earlier, rfl, List.forall_mem_cons.2 ⟨he, hlater⟩⟩

theorem mem (h : LoadedSince bar l k vs) : .loads k vs ∈ l := by
  obtain ⟨later, earlier, rfl, -⟩ := h
  exact List.mem_append_right _ List.mem_cons_self

theorem mono (h : LoadedSince bar l k vs) (hbar : ∀ e, bar' e → bar e) :
    LoadedSince bar' l k vs := by
  obtain ⟨later, earlier, hl, hlater⟩ := h
  exact ⟨later, earlier, hl, fun e he hb => hlater e he (hbar e hb)⟩

end LoadedSince

/-- A query was answered with rows that had been loaded for its key, and nothing happened since the
load for which `bar` holds. Objects were like `h` when it was answered. -/
def ReturnedSince (bar : Happening → Prop) (l : List Happening) (k : Key) (vs : List Value)
    (h : Heap) : Prop :=
  ∃ later earlier, l = later ++ .answers k none vs h :: earlier ∧ LoadedSince bar earlier k vs ∧
    ∀ e ∈ later, ¬ bar e

namespace ReturnedSince

variable {bar bar' : Happening → Prop} {l : List Happening} {k : Key} {vs : List Value} {h : Heap}
  {e : Happening}

theorem answers (h : Heap) (hl : LoadedSince bar l k vs) :
    ReturnedSince bar (.answers k none vs h :: l) k vs h :=
  ⟨[], l, rfl, hl, fun _ he => (by cases he)⟩

theorem cons (hl : ReturnedSince bar l k vs h) (he : ¬ bar e) :
    ReturnedSince bar (e :: l) k vs h := by
  obtain ⟨later, earlier, rfl, hloaded, hlater⟩ := hl
  exact ⟨e :: later, earlier, rfl, hloaded, List.forall_mem_cons.2 ⟨he, hlater⟩⟩

theorem mem (hl : ReturnedSince bar l k vs h) : .answers k none vs h ∈ l ∧ .loads k vs ∈ l := by
  obtain ⟨later, earlier, rfl, hloaded, -⟩ := hl
  exact ⟨List.mem_append_right _ List.mem_cons_self,
    List.mem_append_right _ (List.mem_cons_of_mem _ hloaded.mem)⟩

theorem mono (hl : ReturnedSince bar l k vs h) (hbar : ∀ e, bar' e → bar e) :
    ReturnedSince bar' l k vs h := by
  obtain ⟨later, earlier, hl, hloaded, hlater⟩ := hl
  exact ⟨later, earlier, hl, hloaded.mono hbar, fun e he hb => hlater e he (hbar e hb)⟩

/-- The rows were loaded. -/
theorem loaded (hl : ReturnedSince bar l k vs h) (hbar : ¬ bar (.answers k none vs h)) :
    LoadedSince bar l k vs := by
  obtain ⟨later, earlier, rfl, ⟨later', earlier', rfl, hlater'⟩, hlater⟩ := hl
  refine ⟨later ++ .answers k none vs h :: later', earlier', by simp, fun e he => ?_⟩
  rcases List.mem_append.1 he with he | he
  · exact hlater e he
  · rcases List.mem_cons.1 he with rfl | he
    · exact hbar
    · exact hlater' e he

end ReturnedSince

/-- It ends the unit of work, or a shared cache is to be cleared for it. -/
def Happening.Upsets (r : CacheRef) (e : Happening) : Prop := e.ends = true ∨ e = .updates r

/-- It ends the unit of work, or data changes that some shared cache depends on. -/
def Happening.UpsetsAny (e : Happening) : Prop := ∃ r, e.Upsets r

theorem Happening.not_upsetsAny {e : Happening} (hends : e.ends = false)
    (hupdates : ∀ r, e ≠ .updates r) : ¬ e.UpsetsAny := by
  rintro ⟨r, he | he⟩
  · rw [hends] at he
    cases he
  · exact hupdates r he

/-- A session that publishes now clears a shared cache first, for a change it made. -/
def Clears (r : CacheRef) (l : List Happening) : Prop :=
  ∃ later earlier, l = later ++ .updates r :: earlier ∧ ∀ e ∈ later, e.ends = false

theorem clears_cons {r : CacheRef} {e : Happening} {l : List Happening} :
    Clears r (e :: l) ↔ e = .updates r ∨ (e.ends = false ∧ Clears r l) := by
  constructor
  · rintro ⟨_ | ⟨f, later⟩, earlier, hl, hlater⟩
    · exact .inl (List.cons.inj hl).1
    · obtain ⟨rfl, rfl⟩ := List.cons.inj hl
      exact .inr ⟨hlater _ List.mem_cons_self, later, earlier, rfl,
        fun g hg => hlater g (List.mem_cons_of_mem _ hg)⟩
  · rintro (rfl | ⟨he, later, earlier, rfl, hlater⟩)
    · exact ⟨[], l, rfl, fun _ hf => (by cases hf)⟩
    · exact ⟨e :: later, earlier, rfl, List.forall_mem_cons.2 ⟨he, hlater⟩⟩

/-- What happened to which session. -/
abbrev Log := List (Nat × Happening)

namespace Log

/-- What happened to one session. -/
def of (L : Log) (i : Nat) : List Happening := (L.filter (·.1 = i)).map (·.2)

/-- What happened to one session alone. -/
def tell (i : Nat) (l : List Happening) : Log := l.map fun e => (i, e)

@[simp] theorem of_cons_self (L : Log) (i : Nat) (e : Happening) :
    of ((i, e) :: L) i = e :: of L i := by
  simp [of]

theorem mem_of {L : Log} {i : Nat} {e : Happening} : e ∈ of L i ↔ (i, e) ∈ L := by
  simp [of]

theorem of_cons_of_ne (L : Log) {i j : Nat} (e : Happening) (h : j ≠ i) :
    of ((j, e) :: L) i = of L i := by
  simp [of, h]

theorem of_tell_of_ne (L : Log) {i j : Nat} (l : List Happening) (h : j ≠ i) :
    of (tell j l ++ L) i = of L i := by
  induction l with
  | nil => rfl
  | cons e l ih => exact (of_cons_of_ne _ e h).trans ih

def brief (L : Log) : List (Nat × Happening.Brief) := L.map fun a => (a.1, a.2.brief)

theorem eq_cons_of_brief {L : Log} {i : Nat} {b : Happening.Brief}
    {bs : List (Nat × Happening.Brief)} (h : L.brief = (i, b) :: bs) :
    ∃ (e : Happening) (earlier : Log),
      L = (i, e) :: earlier ∧ e.brief = b ∧ earlier.brief = bs := by
  obtain ⟨⟨j, e⟩, earlier, rfl, he, hearlier⟩ := List.map_eq_cons_iff.1 h
  obtain ⟨rfl, hbrief⟩ := Prod.mk.inj he
  exact ⟨e, earlier, rfl, hbrief, hearlier⟩

theorem map_brief_of (L : Log) (i : Nat) :
    (L.of i).map Happening.brief = (L.brief.filter (·.1 = i)).map (·.2) := by
  rw [of, brief, List.filter_map, List.map_map, List.map_map]
  rfl

end Log

theorem clears_of_brief {r : CacheRef} {l : List Happening} (xs ys : List Happening.Brief)
    (h : l.map Happening.brief = xs ++ .updates r :: ys)
    (hxs : ∀ b ∈ xs, b ≠ .publishes ∧ b ≠ .drops) : Clears r l := by
  obtain ⟨later, rest, rfl, rfl, hrest⟩ := List.map_eq_append_iff.1 h
  obtain ⟨e, earlier, rfl, he, -⟩ := List.map_eq_cons_iff.1 hrest
  rw [Happening.eq_updates he]
  refine ⟨later, earlier, rfl, fun f hf => ?_⟩
  obtain ⟨hpublishes, hdrops⟩ := hxs _ (List.mem_map_of_mem hf)
  cases f with
  | publishes bs i => exact absurd rfl hpublishes
  | drops => exact absurd rfl hdrops
  | _ => rfl

/-- A buffer in front of a shared cache has rows for a key. -/
def Buffers.Writes (bs : Buffers) (r : CacheRef) (k : Key) (vs : List Value) : Prop :=
  ∃ id b, bs.byId.get? id = some (r, b) ∧ b.pending.get? k = some (.rows vs)

/-- A buffer in front of a shared cache has missed a key and has no rows for it. -/
def Buffers.Denies (bs : Buffers) (r : CacheRef) (k : Key) : Prop :=
  ∃ id b, bs.byId.get? id = some (r, b) ∧ k ∈ b.missed ∧ b.pending.get? k = none

/-- A session published that a shared cache has no rows for a key. -/
def Log.Denies (L : Log) (r : CacheRef) (k : Key) : Prop :=
  ∃ i bs h, (i, .publishes bs h) ∈ L ∧ bs.Denies r k

theorem Log.Denies.cons {L : Log} {r : CacheRef} {k : Key} (hL : L.Denies r k)
    (a : Nat × Happening) : Log.Denies (a :: L) r k := by
  obtain ⟨i, bs, h, hmem, hbs⟩ := hL
  exact ⟨i, bs, h, List.mem_cons_of_mem a hmem, hbs⟩

/-- A session publishes its buffers, with rows among them that one of its queries returned. -/
structure Publication where
  session : Nat
  buffers : Buffers
  rows : List Value
  /-- objects as they were when the query returned -/
  returned : Heap
  /-- objects as they are now -/
  heap : Heap

namespace Publication

def event (p : Publication) : Nat × Happening := (p.session, .publishes p.buffers p.heap)

/-- What a shared cache gets. -/
def entry (p : Publication) (coded : Bool) : Entry := (Entry.rows p.rows).kept coded p.heap

theorem bearsRows_entry (p : Publication) (coded : Bool) : (p.entry coded).bearsRows = true := by
  cases coded <;> rfl

/-- The rows are for a key of a shared cache. The session loaded them in the unit of work that it
ends now, and since it last changed data that the cache depends on. -/
structure Puts (p : Publication) (r : CacheRef) (k : Key) (before : Log) : Prop where
  writes : p.buffers.Writes r k p.rows
  returned : ReturnedSince (·.Upsets r) (before.of p.session) k p.rows p.returned

/-- It is in the log, with rows for a key of a shared cache. -/
def Occurs (p : Publication) (L : Log) (r : CacheRef) (k : Key) : Prop :=
  ∃ later earlier, L = later ++ p.event :: earlier ∧ p.Puts r k earlier

theorem Occurs.mem {p : Publication} {L : Log} {r : CacheRef} {k : Key} (hp : p.Occurs L r k) :
    p.event ∈ L ∧ (p.session, .answers k none p.rows p.returned) ∈ L ∧
      (p.session, .loads k p.rows) ∈ L := by
  obtain ⟨later, earlier, rfl, hputs⟩ := hp
  obtain ⟨hanswers, hloads⟩ := hputs.returned.mem
  have hsub : ∀ a ∈ earlier, a ∈ later ++ p.event :: earlier :=
    fun a ha => List.mem_append_right _ (List.mem_cons_of_mem _ ha)
  exact ⟨List.mem_append_right _ List.mem_cons_self, hsub _ (Log.mem_of.1 hanswers),
    hsub _ (Log.mem_of.1 hloads)⟩

end Publication

/-- What is known when a log begins: the names of the shared caches, their layers, what happened so
far, and all rows that the shared caches have. If nobody but sessions writes to shared caches, it is
known of all other entries too. -/
structure Start where
  ids : CacheRef → String
  layers : CacheRef → List Layer
  past : Log
  closed : Prop
  had : CacheRef → Key → Entry → Prop

namespace Start

/-- Whether a shared cache keeps rows coded. -/
def coded (G : Start) (r : CacheRef) : Bool := storesCoded false (G.layers r)

/-- What happened to one session, before the log begins and in it. -/
def of (G : Start) (L : Log) (i : Nat) : List Happening := Log.of (L ++ G.past) i

@[simp] theorem of_cons_self (G : Start) (L : Log) (i : Nat) (e : Happening) :
    G.of ((i, e) :: L) i = e :: G.of L i := Log.of_cons_self _ i e

theorem of_tell_of_ne (G : Start) (L : Log) {i j : Nat} (l : List Happening) (h : j ≠ i) :
    G.of (Log.tell j l ++ L) i = G.of L i := by
  rw [of, List.append_assoc]
  exact Log.of_tell_of_ne _ l h

/-- If it is a session that publishes, it clears no shared cache first. -/
def Spares (G : Start) (r : CacheRef) (a : Nat × Happening) (L : Log) : Prop :=
  ∀ bs h, a.2 = .publishes bs h → ¬ Clears r (G.of L a.1)

theorem Spares.of_ne {G : Start} {r : CacheRef} {i : Nat} {e : Happening} {L : Log}
    (he : ∀ bs h, e ≠ .publishes bs h) : G.Spares r (i, e) L :=
  fun bs h heq => absurd heq (he bs h)

/-- The log accounts for an entry that a shared cache has: it was there at the start, or a session
published rows or their absence, and nobody cleared the cache since for a change. -/
inductive Stocked (G : Start) (r : CacheRef) (k : Key) : Log → Entry → Prop
  | start {e : Entry} (he : G.had r k e) : Stocked G r k [] e
  | published (p : Publication) {L : Log} (hp : p.Puts r k (L ++ G.past)) :
    Stocked G r k (p.event :: L) (p.entry (G.coded r))
  | denied {i : Nat} {bs : Buffers} {h : Heap} {L : Log} (hbs : bs.Denies r k) :
    Stocked G r k ((i, .publishes bs h) :: L) .absence
  | kept {e : Entry} {a : Nat × Happening} {L : Log} (he : Stocked G r k L e)
    (ha : G.Spares r a L) : Stocked G r k (a :: L) e

/-- The log accounts for the rows that a session answers a query with: the session loaded them in
this unit of work, or the shared cache that the query asked has them. -/
def Backs (G : Start) (i : Nat) (k : Key) (vs : List Value) (h : Heap) :
    Option CacheRef → Log → Prop
  | none, L => LoadedSince (·.ends = true) (G.of L i) k vs
  | some r, L => ∃ e, G.Stocked r k L e ∧ e.Shows (.rows vs) h

/-- The log accounts for an answer without rows: if a shared cache gave it and only sessions write to
the cache, it has the absence of the key. -/
def Lacks (G : Start) (k : Key) : Option CacheRef → Log → Prop
  | none, _ => True
  | some r, L => G.closed → G.Stocked r k L .absence

/-- The log accounts for all that queries were answered with since the start. -/
inductive Answered (G : Start) : Log → Prop
  | start : Answered G []
  | answer {i : Nat} {k : Key} {c : Option CacheRef} {vs : List Value} {h : Heap} {L : Log}
    (hL : Answered G L) (hvs : (vs = [] ∧ G.Lacks k c L) ∨ G.Backs i k vs h c L) :
    Answered G ((i, .answers k c vs h) :: L)
  | other {a : Nat × Happening} {L : Log} (hL : Answered G L)
    (ha : ∀ k c vs h, a.2 ≠ .answers k c vs h) : Answered G (a :: L)

variable {G : Start} {r : CacheRef} {k : Key} {L : Log} {e : Entry}

/-- Where rows come from that were not there at the start. -/
theorem Stocked.origin (he : G.Stocked r k L e) (hrows : e.bearsRows = true) :
    G.had r k e ∨ ∃ (later : Log) (p : Publication) (earlier : Log),
      L = later ++ p.event :: earlier ∧
      p.Puts r k (earlier ++ G.past) ∧ e = p.entry (G.coded r) ∧
      ∀ newer a older, later = newer ++ a :: older →
        G.Spares r a (older ++ p.event :: earlier) := by
  induction he with
  | start he => exact .inl he
  | published p hp =>
    refine .inr ⟨[], p, _, rfl, hp, rfl, fun newer a older hlater => ?_⟩
    exact absurd hlater (by simp)
  | denied => cases hrows
  | kept he ha ih =>
    refine (ih hrows).imp_right ?_
    rintro ⟨later, p, earlier, rfl, hp, rfl, hlater⟩
    refine ⟨_ :: later, p, earlier, rfl, hp, rfl, fun newer b older hsplit => ?_⟩
    cases newer with
    | nil =>
      obtain ⟨rfl, rfl⟩ := List.cons.inj hsplit
      exact ha
    | cons c newer => exact hlater newer b older (List.cons.inj hsplit).2

/-- An entry without rows that was not there at the start is an absence that was published. -/
theorem Stocked.denies (he : G.Stocked r k L e) (hrows : e.bearsRows = false) :
    G.had r k e ∨ (e = .absence ∧ L.Denies r k) := by
  induction he with
  | start he => exact .inl he
  | published p hp =>
    rw [Publication.bearsRows_entry] at hrows
    cases hrows
  | @denied i bs h L hbs => exact .inr ⟨rfl, i, bs, h, List.mem_cons_self, hbs⟩
  | kept he ha ih => exact (ih hrows).imp_right fun ⟨he, hdenies⟩ => ⟨he, hdenies.cons _⟩

theorem Answered.backed {after : Log} {i : Nat} {c : Option CacheRef} {vs : List Value} {h : Heap}
    (hL : G.Answered (after ++ (i, .answers k c vs h) :: L)) :
    (vs = [] ∧ G.Lacks k c L) ∨ G.Backs i k vs h c L := by
  induction after with
  | nil =>
    cases hL with
    | answer _ hvs => exact hvs
    | other _ ha => exact absurd rfl (ha k c vs h)
  | cons a after ih =>
    cases hL with
    | answer hL _ => exact ih hL
    | other hL _ => exact ih hL

end Start

end ResultCache
