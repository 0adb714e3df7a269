import Mathlib.Data.List.Permutation
import ResultCache.Proofs.Session.Complete

/-!
# The same graph whatever was asked before

Two sessions over one data source that always says the same may make the objects of their results in
any order. Pairing the objects that were made of the same row for the same key, and those that the
data source made alike for the same key, is a renaming of one session's objects to the other's
(`Ledger.Pairs.renaming`): a nested property holds in both what the results for one nested key give
it. So the graph that a query returns, cycles included, is the same up to the identities of its
objects, whatever the session was asked before (`nested_graphs_canonical`).
-/
namespace ResultCache

variable {τ : Type} {W : Scheme τ} {A B : Ledger} {s s' t t' : State τ} {o p : ObjId} {k : Key}

/-- Members at the same place of related lists are related. -/
theorem forall₂_getElem? {α β : Type} {R : α → β → Prop} {l : List α} {l' : List β}
    (h : List.Forall₂ R l l') {i : Nat} {a : α} {b : β} (ha : l[i]? = some a)
    (hb : l'[i]? = some b) : R a b :=
  (List.forall₂_iff_zip.1 h).2
    (List.mem_iff_getElem?.2 ⟨i, List.getElem?_zip_eq_some.2 ⟨ha, hb⟩⟩)

/-- Alike rows give a property alike values. -/
theorem alike_extract {ρ : ObjId → ObjId → Prop} {target : Session.Target} {vs ws : List Value}
    (h : List.Forall₂ (Value.Alike ρ) vs ws) {v w : Value} (hv : target.extract vs = .ok v)
    (hw : target.extract ws = .ok w) : v.Alike ρ w := by
  cases target with
  | list =>
    cases hv
    cases hw
    exact Value.alike_list_iff.2 h
  | single =>
    cases h with
    | nil =>
      cases hv
      cases hw
      exact .null
    | cons hvw h =>
      cases h with
      | nil =>
        cases hv
        cases hw
        exact hvw
      | cons _ _ => cases hv

namespace Ledger

/-- The answers for a key are paired. -/
def Matched (W : Scheme τ) (A B : Ledger) (k : Key) (ρ : ObjId → ObjId → Prop) : Prop :=
  ∀ T T', A.told k = some T → B.told k = some T' → T.Alike W.shared ρ T'

theorem exists_matched (hA : A.Sound W) (hB : B.Sound W) (k : Key) : ∃ ρ, Matched W A B k ρ := by
  cases hT : A.told k with
  | none => exact ⟨fun _ _ => False, fun T T' h => by rw [hT] at h; cases h⟩
  | some T =>
    cases hT' : B.told k with
    | none => exact ⟨fun _ _ => False, fun T T' _ h => by rw [hT'] at h; cases h⟩
    | some T' =>
      obtain ⟨ρ, hρ⟩ := (hA.answers hT).alike (hB.answers hT')
      refine ⟨ρ, fun U U' hU hU' => ?_⟩
      obtain rfl := Option.some.inj (hT.symm.trans hU)
      obtain rfl := Option.some.inj (hT'.symm.trans hU')
      exact hρ

/-- Objects that answers share stand for themselves; objects of the data source are paired as the
answers are; objects made of rows are paired row by row. -/
inductive Pairs (W : Scheme τ) (A B : Ledger) (ρ : Key → ObjId → ObjId → Prop) :
    ObjId → ObjId → Prop where
  | shared {o : ObjId} (ho : W.shared o) : Pairs W A B ρ o o
  | answer {o p : ObjId} {k : Key} (ho : A.home o = some (.answer k))
      (hp : B.home p = some (.answer k)) (hop : ρ k o p) : Pairs W A B ρ o p
  | row {o p : ObjId} {k : Key} {i : Nat} (ho : A.home o = some (.row k i))
      (hp : B.home p = some (.row k i)) : Pairs W A B ρ o p

variable {ρ : Key → ObjId → ObjId → Prop}

theorem pairs_of_beside (hA : A.Sound W) (hB : B.Sound W) {T T' : Told} (hT : A.told k = some T)
    (hT' : B.told k = some T') (hρ : T.Alike W.shared (ρ k) T')
    (h : Beside W.shared (ρ k) o p) : Pairs W A B ρ o p := by
  rcases h with h | ⟨ho, rfl⟩
  · obtain ⟨hm, hm'⟩ := hρ.made h
    exact .answer (hA.answer.2 ⟨T, hT, hm⟩) (hB.answer.2 ⟨T', hT', hm'⟩) h
  · exact .shared ho

/-- Only one object is made of each row. -/
theorem Complete.row_unique (hA : A.Complete W s) {i : Nat} (ho : A.home o = some (.row k i))
    (hp : A.home p = some (.row k i)) : o = p := by
  obtain ⟨T, r, hT, -⟩ := hA.fits.sound.row ho
  obtain ⟨os, -, hos, -⟩ := hA.rows_of_told hT
  exact Option.some.inj (((hos i o).2 ho).symm.trans ((hos i p).2 hp))

section

variable (hA : A.Complete W s) (hB : B.Complete W s') (hρ : ∀ k, Matched W A B k (ρ k))
include hA hB hρ

/-- Results for one key are paired row by row. -/
theorem alike_rows {vs ws : List Value} (hvs : s.session.loaded.get? k = some (.rows vs))
    (hws : s'.session.loaded.get? k = some (.rows ws)) :
    List.Forall₂ (Value.Alike (Pairs W A B ρ)) vs ws := by
  obtain ⟨T, os, hT, hos, hlists, hlen⟩ := hA.told_of_rows hvs
  obtain ⟨T', ps, hT', hps, hlists', hlen'⟩ := hB.told_of_rows hws
  cases hos
  cases hps
  have hlength : os.length = ps.length := by
    rw [hlen, hlen', (hρ k T T' hT hT').rows.length_eq]
  rw [List.forall₂_map_left_iff, List.forall₂_map_right_iff, List.forall₂_iff_zip]
  refine ⟨hlength, fun {o p} hop => ?_⟩
  obtain ⟨i, hi⟩ := List.mem_iff_getElem?.1 hop
  obtain ⟨ho, hp⟩ := List.getElem?_zip_eq_some.1 hi
  exact .object (.row ((hlists i o).1 ho) ((hlists' i p).1 hp))

/-- Objects made of the same row have alike properties. -/
theorem alike_read {i : Nat} (ho : A.home o = some (.row k i)) (hp : B.home p = some (.row k i))
    (name : String) : Option.Rel (Value.Alike (Pairs W A B ρ)) (s.heap.read o name)
      (s'.heap.read p name) := by
  obtain ⟨T, r, hT, hr⟩ := hA.fits.sound.row ho
  obtain ⟨T', r', hT', hr'⟩ := hB.fits.sound.row hp
  have hrow : A.Row o T r := ⟨k, i, ho, hT, hr⟩
  have hrow' : B.Row p T' r' := ⟨k, i, hp, hT', hr'⟩
  have hT₁ := hA.fits.sound.answers hT
  have hT₂ := hB.fits.sound.answers hT'
  have halike := hρ k T T' hT hT'
  have hrr' := forall₂_getElem? halike.rows hr hr'
  have hselects : W.selects T = W.selects T' := by
    have hasked := Query.keyOf_eq_iff.1 (hT₁.key.trans hT₂.key.symm)
    exact congrArg W.nested (congrArg (·.id) hasked)
  by_cases hname : ∃ n ∈ W.selects T, n.property = name
  · obtain ⟨n, hn, rfl⟩ := hname
    obtain ⟨vs, v, hvs, hv, hread⟩ := hA.done hrow hn
    obtain ⟨ws, w, hws, hw, hread'⟩ := hB.done hrow' (hselects ▸ hn)
    have hkey : W.nestedKey T' n r' = W.nestedKey T n r :=
      Scheme.keyOf_forRow (hT₁.renaming hT₂ halike) n hrr'
    rw [hkey] at hws
    rw [hread, hread']
    exact .some (alike_extract (alike_rows hA hB hρ hvs hws) hv hw)
  · have hother : ∀ n ∈ W.selects T, n.property ≠ name := fun n hn he => hname ⟨n, hn, he⟩
    rw [hA.fits.columns hrow name hother, hB.fits.columns hrow' name (hselects ▸ hother)]
    exact hrr'.mono (fun _ _ => pairs_of_beside hA.fits.sound hB.fits.sound hT hT' halike) name

/-- An object has at most one partner. -/
theorem Pairs.left {p' : ObjId} (h : Pairs W A B ρ o p) (h' : Pairs W A B ρ o p') : p = p' := by
  cases h with
  | shared ho =>
    have hnone := hA.fits.sound.shared ho
    cases h' with
    | shared _ => rfl
    | answer ho' _ _ => rw [hnone] at ho'; cases ho'
    | row ho' _ => rw [hnone] at ho'; cases ho'
  | answer ho hp hop =>
    cases h' with
    | shared ho' => rw [hA.fits.sound.shared ho'] at ho; cases ho
    | row ho' _ => rw [ho] at ho'; cases ho'
    | answer ho' hp' hop' =>
      rw [ho] at ho'
      cases ho'
      obtain ⟨T, hT, -⟩ := hA.fits.sound.answer.1 ho
      obtain ⟨T', hT', -⟩ := hB.fits.sound.answer.1 hp
      exact (hρ _ T T' hT hT').left hop hop'
  | row ho hp =>
    cases h' with
    | shared ho' => rw [hA.fits.sound.shared ho'] at ho; cases ho
    | answer ho' _ _ => rw [ho] at ho'; cases ho'
    | row ho' hp' =>
      rw [ho] at ho'
      cases ho'
      exact hB.row_unique hp hp'

theorem Pairs.right {o' : ObjId} (h : Pairs W A B ρ o p) (h' : Pairs W A B ρ o' p) : o = o' := by
  cases h with
  | shared hp =>
    have hnone := hB.fits.sound.shared hp
    cases h' with
    | shared _ => rfl
    | answer _ hp' _ => rw [hnone] at hp'; cases hp'
    | row _ hp' => rw [hnone] at hp'; cases hp'
  | answer ho hp hop =>
    cases h' with
    | shared hp' => rw [hB.fits.sound.shared hp'] at hp; cases hp
    | row _ hp' => rw [hp] at hp'; cases hp'
    | answer ho' hp' hop' =>
      rw [hp] at hp'
      cases hp'
      obtain ⟨T, hT, -⟩ := hA.fits.sound.answer.1 ho
      obtain ⟨T', hT', -⟩ := hB.fits.sound.answer.1 hp
      exact (hρ _ T T' hT hT').right hop hop'
  | row ho hp =>
    cases h' with
    | shared hp' => rw [hB.fits.sound.shared hp'] at hp; cases hp
    | answer _ hp' _ => rw [hp] at hp'; cases hp'
    | row ho' hp' =>
      rw [hp] at hp'
      cases hp'
      exact hA.row_unique ho ho'

/-- Pairing objects by where they come from is a renaming. -/
theorem Pairs.renaming : Heap.Renaming (Pairs W A B ρ) s.heap s'.heap where
  left h h' := h.left hA hB hρ h'
  right h h' := h.right hA hB hρ h'
  records {o p} h := by
    cases h with
    | shared ho =>
      obtain ⟨r, hr, hclosed⟩ := W.constant.closed o ho
      refine ⟨r, r, (hA.fits.given o ho).trans hr, (hB.fits.given o ho).trans hr, ?_⟩
      exact Record.alike_self fun q hq a ha => .shared (hclosed q hq a ha)
    | answer ho hp hop =>
      obtain ⟨T, hT, hm⟩ := hA.fits.sound.answer.1 ho
      obtain ⟨T', hT', hm'⟩ := hB.fits.sound.answer.1 hp
      have halike := hρ _ T T' hT hT'
      obtain ⟨r, r', hr, hr', hrr'⟩ := halike.records hop
      refine ⟨r, r', (hA.fits.made hT hm).trans hr, (hB.fits.made hT' hm').trans hr', ?_⟩
      exact hrr'.mono fun _ _ => pairs_of_beside hA.fits.sound hB.fits.sound hT hT' halike
    | row ho hp =>
      obtain ⟨r, hr⟩ := Option.isSome_iff_exists.1 (Heap.record?_isSome_iff.2 (hA.fits.known ho))
      obtain ⟨r', hr'⟩ :=
        Option.isSome_iff_exists.1 (Heap.record?_isSome_iff.2 (hB.fits.known hp))
      refine ⟨r, r', hr, hr', fun name => ?_⟩
      have hread := alike_read hA hB hρ ho hp name
      rw [Heap.read, Heap.read, hr, hr'] at hread
      exact hread

end

end Ledger

/-- Nested selects are resolved in full, and in only one way. When a query gave its rows, the
session holds them, and lost nothing of what it held; every object of every result that it holds
carries all its nested properties, each with what the results held for the nested key give. And
whatever was asked before, in whatever order, rows given for one key lead to the same graph of
objects, cycles included, up to the identities of the objects. -/
theorem nested_graphs_canonical {mine mine' : ObjId → Prop} (hs : W.Queried mine s)
    (hs' : W.Queried mine' s') {q q' : Query} {vs vs' : List Value}
    (hq : W.Gives mine s q vs t) (hq' : W.Gives mine' s' q' vs' t') :
    t.session.loaded.get? (W.keyOf s.heap q) = some (.rows vs) ∧
      (∀ k e, s.session.loaded.get? k = some e → t.session.loaded.get? k = some e) ∧
      t.Resolved W.hash W.nested ∧
      (W.keyOf s.heap q = W.keyOf s'.heap q' →
        ∃ ρ, Heap.Renaming ρ t.heap t'.heap ∧ (∀ o, W.shared o → ρ o o) ∧
          List.Forall₂ (Value.Alike ρ) vs vs') := by
  obtain ⟨hrows, hkept⟩ := hs.loaded hq
  obtain ⟨hrows', -⟩ := hs'.loaded hq'
  obtain ⟨A, hA, -⟩ := (hs.query hq).complete
  obtain ⟨B, hB, -⟩ := (hs'.query hq').complete
  refine ⟨hrows, hkept, hA.resolved, fun hkey => ?_⟩
  choose ρ hρ using Ledger.exists_matched hA.fits.sound hB.fits.sound
  refine ⟨Ledger.Pairs W A B ρ, Ledger.Pairs.renaming hA hB hρ, fun _ ho => .shared ho, ?_⟩
  exact Ledger.alike_rows hA hB hρ hrows (hkey ▸ hrows')

/-- Asks a query from outside, where queries nest less than `limit` deep, for its rows. -/
def Env.rows (env : Env τ) (limit : Nat) (q : Query) (s : State τ) :
    Option (List Value × State τ) :=
  (env.perform limit (.query q none false) s).bind fun (reply, t) =>
    match reply.result with
    | .ok vs => some (vs, t)
    | .error _ => none

/-- Asks queries one after the other, for the rows of the last one. -/
def Env.lastRows (env : Env τ) (limit : Nat) (qs : List Query) (s : State τ) :
    Option (List Value × State τ) :=
  qs.foldlM (fun p q => env.rows limit q p.2) ([], s)

theorem Env.perform_of_rows {env : Env τ} {limit : Nat} {q : Query} {vs : List Value}
    (h : env.rows limit q s = some (vs, t)) :
    ∃ reply, env.perform limit (.query q none false) s = some (reply, t) ∧
      reply.result = .ok vs := by
  obtain ⟨⟨reply, u⟩, hrun, hreply⟩ := Option.bind_eq_some_iff.1 h
  dsimp only at hreply
  split at hreply
  · rename_i ws hws
    cases hreply
    exact ⟨reply, hrun, hws⟩
  · cases hreply

/-- A query for what belongs to the number one. -/
def askOne (st : Statement) : Query := .ofStatement st (.int 1) .unbounded

def byParameter (id name : String) : Statement :=
  { Statement.make .select id "SELECT 1" with parameters := [⟨name, .input⟩] }

def authorQuery : Statement := byParameter "A.author" "id"

def bookQuery : Statement := byParameter "B.book" "id"

def shelfQuery : Statement := byParameter "C.shelf" "shelf"

/-- An author of a book that stands on shelf seven, which is on the second floor. -/
def libraryRows : String → List Frozen → List Record
  | "A.author", _ => [.ofList [("id", .int 1)]]
  | "B.book", _ => [.ofList [("author", .int 1), ("shelf", .int 7)]]
  | "C.shelf", [.int _] => [.ofList [("floor", .int 2)]]
  | "C.shelf", _ => [.ofList [("floor", .null)]]
  | _, _ => []

theorem isScalar_libraryRows (id : String) (fs : List Frozen) :
    (libraryRows id fs).all Record.isScalar := by
  rw [libraryRows.eq_def]
  split <;> cbv

/-- An author has a book, and the book has its writer. -/
def librarySelects : String → List NestedSelect
  | "A.author" => [⟨"book", "id", bookQuery, .single⟩]
  | "B.book" => [⟨"writer", "author", authorQuery, .single⟩]
  | _ => []

theorem mem_librarySelects {id : String} {n : NestedSelect} (hn : n ∈ librarySelects id) :
    librarySelects id = [n] ∧ n.property ≠ n.column ∧
      ∃ id name, n.statement = byParameter id name := by
  rw [librarySelects.eq_def] at hn ⊢
  split at hn
  · obtain rfl := List.mem_singleton.1 hn
    exact ⟨rfl, by decide, _, _, rfl⟩
  · obtain rfl := List.mem_singleton.1 hn
    exact ⟨rfl, by decide, _, _, rfl⟩
  · cases hn

def library : Scheme Unit where
  hash := flatHash
  source := .ofRows libraryRows .empty
  nested := librarySelects
  config := .standard
  shared _ := False
  given := .empty
  scope := rfl
  constant := DataSource.constant_ofRows _ isScalar_libraryRows
  names id := by
    rw [librarySelects.eq_def]
    split
    · exact List.nodup_singleton _
    · exact List.nodup_singleton _
    · exact List.nodup_nil
  columns id n hn m hm := by
    obtain ⟨hsingle, hne, -⟩ := mem_librarySelects hn
    rw [hsingle] at hm
    obtain rfl := List.mem_singleton.1 hm
    exact hne
  unshared id n hn _ := by
    obtain ⟨-, -, id, name, hst⟩ := mem_librarySelects hn
    rw [hst]
    rfl
  procedures T _ n hn r _ o ho := by
    obtain ⟨-, -, id, name, hst⟩ := mem_librarySelects hn
    have hcall : n.statement.isCallable := ho.1
    rw [hst] at hcall
    cases hcall

/-- A session that was asked nothing. -/
def newSession : State Unit := ⟨.ofConfig .standard, ⟨.empty, .empty, 0, ()⟩⟩

theorem gives_byParameter {W : Scheme Unit} {s t : State Unit} {mine : ObjId → Prop} {limit : Nat}
    {id name : String} {vs : List Value}
    (h : W.env.rows limit (askOne (byParameter id name)) s = some (vs, t)) :
    W.Gives mine s (askOne (byParameter id name)) vs t where
  flushes := rfl
  unshared := ite_self none
  sets o ho := by cases ho.1
  runs := ⟨limit, Env.perform_of_rows h⟩

/-- The author is the same whether or not the book was asked for before, though then it is the book
that is made first and waits for its writer. -/
theorem nested_graphs_canonical_library :
    ∃ vs t vs' t', library.env.lastRows 4 [askOne authorQuery] newSession = some (vs, t) ∧
      library.env.lastRows 4 [askOne bookQuery, askOne authorQuery] newSession = some (vs', t') ∧
      t.Resolved library.hash library.nested ∧
      ∃ ρ, Heap.Renaming ρ t.heap t'.heap ∧ List.Forall₂ (Value.Alike ρ) vs vs' := by
  have hone : (library.env.lastRows 4 [askOne authorQuery] newSession).isSome := by cbv
  have htwo : (library.env.lastRows 4 [askOne bookQuery, askOne authorQuery] newSession).isSome :=
    by cbv
  obtain ⟨⟨vs, t⟩, hvs⟩ := Option.isSome_iff_exists.1 hone
  obtain ⟨⟨vs', t'⟩, hvs'⟩ := Option.isSome_iff_exists.1 htwo
  obtain ⟨⟨_, s⟩, hbook, hrest⟩ := Option.bind_eq_some_iff.1 hvs'
  obtain ⟨p, hauthor, hp⟩ := Option.bind_eq_some_iff.1 hrest
  obtain ⟨p', hauthor', hp'⟩ := Option.bind_eq_some_iff.1 hvs
  cases hp
  cases hp'
  have hstart : library.Queried _ newSession := .start rfl fun o ho => ho.elim
  have hnone : Heap.Renaming (fun _ _ => False) s.heap newSession.heap :=
    ⟨fun h => h.elim, fun h => h.elim, fun h => h.elim⟩
  have hkey : library.keyOf newSession.heap (askOne authorQuery) =
      library.keyOf s.heap (askOne authorQuery) :=
    Query.keyOf_eq_iff.2 (hnone.asked_eq authorQuery (.int 1) .unbounded)
  obtain ⟨-, -, hresolved, hgraph⟩ := nested_graphs_canonical hstart
    (hstart.query (gives_byParameter hbook)) (gives_byParameter hauthor')
    (gives_byParameter hauthor)
  obtain ⟨ρ, hρ, -, hrows⟩ := hgraph hkey
  exact ⟨vs, t, vs', t', hvs, hvs', hresolved, ρ, hρ, hrows⟩

/-- The last queries of two lists give different graphs. -/
def Env.Differ (env : Env τ) (limit : Nat) (qs qs' : List Query) (s : State τ) : Prop :=
  ∃ vs t vs' t', env.lastRows limit qs s = some (vs, t) ∧
    env.lastRows limit qs' s = some (vs', t') ∧
    ¬ ∃ ρ, Heap.Renaming ρ t.heap t'.heap ∧ List.Forall₂ (Value.Alike ρ) vs vs'

/-- The frozen rows of the last query. -/
def Env.frozenRows (env : Env τ) (limit : Nat) (qs : List Query) (s : State τ) :
    Option (List Frozen) :=
  (env.lastRows limit qs s).map fun (vs, t) => vs.map t.heap.freeze

theorem Env.differ_of_frozenRows {env : Env τ} {limit : Nat} {qs qs' : List Query}
    {fs fs' : List Frozen} (h : env.frozenRows limit qs s = some fs)
    (h' : env.frozenRows limit qs' s = some fs') (hne : fs ≠ fs') : env.Differ limit qs qs' s := by
  obtain ⟨⟨vs, t⟩, hvs, rfl⟩ := Option.map_eq_some_iff.1 h
  obtain ⟨⟨vs', t'⟩, hvs', rfl⟩ := Option.map_eq_some_iff.1 h'
  refine ⟨vs, t, vs', t', hvs, hvs', fun ⟨ρ, hρ, hrows⟩ => hne ?_⟩
  exact (map_eq_of_forall₂ hrows fun _ _ _ hvw => hρ.freeze_eq hvw).symm

/-- The author's shelf is looked up by the book, which is itself a nested property. -/
def shelvedSelects : String → List NestedSelect
  | "A.author" => [⟨"book", "id", bookQuery, .single⟩, ⟨"shelf", "book", shelfQuery, .list⟩]
  | "B.book" => [⟨"writer", "author", authorQuery, .single⟩]
  | _ => []

/-- No nested property is a column. -/
theorem shelvedSelects_apart (id : String) : ((shelvedSelects id).map (·.property)).Nodup ∧
    ∀ n ∈ shelvedSelects id, ∀ fs, ∀ r ∈ libraryRows id fs, r.get? n.property = none := by
  rw [shelvedSelects.eq_def]
  split
  · refine ⟨by decide, fun n hn fs r hr => ?_⟩
    obtain rfl := List.mem_singleton.1 hr
    revert n
    decide
  · refine ⟨by decide, fun n hn fs r hr => ?_⟩
    obtain rfl := List.mem_singleton.1 hr
    revert n
    decide
  · exact ⟨List.nodup_nil, fun n hn => nomatch hn⟩

def shelvedLibrary : Env Unit :=
  .nested flatHash (.ofRows libraryRows .empty) shelvedSelects

/-- A procedure that sets the book of its parameter to five. -/
def assignBook : Statement :=
  { Statement.make .select "P.assign" "CALL assign" with
    parameters := [⟨"id", .input⟩, ⟨"book", .output⟩], form := .callable }

def assigningLibrary : Env Unit :=
  .nested flatHash (.ofRows libraryRows (.ofList [("book", .int 5)])) librarySelects

/-- An author of the library, with a book and further properties. -/
def frozenAuthor (book : Frozen) (more : List (String × Frozen)) : Frozen :=
  .object ([("book", book), ("id", .int 1)] ++ more)

def frozenBook : Frozen :=
  .object [("author", .int 1), ("shelf", .int 7), ("writer", .object [])]

/-- Where a nested property is the parameter of another one, the graph depends on what was asked
before: while the book waits, the shelf is looked up without it. And a procedure that is called
with an author as its parameter replaces the author's book. -/
theorem nested_graphs_depend_on_history :
    (∀ outputs, (DataSource.ofRows libraryRows outputs).Constant (fun _ => False) .empty) ∧
      (∀ id, ((shelvedSelects id).map (·.property)).Nodup ∧
        ∀ n ∈ shelvedSelects id, ∀ fs, ∀ r ∈ libraryRows id fs, r.get? n.property = none) ∧
      shelvedLibrary.Differ 4 [askOne authorQuery] [askOne bookQuery, askOne authorQuery]
        newSession ∧
      assigningLibrary.Differ 4 [askOne authorQuery]
        [askOne authorQuery, .ofStatement assignBook (.object ⟨0⟩) .unbounded, askOne authorQuery]
        newSession := by
  refine ⟨fun outputs => DataSource.constant_ofRows outputs isScalar_libraryRows,
    shelvedSelects_apart, ?_, ?_⟩
  · have hfirst : shelvedLibrary.frozenRows 4 [askOne authorQuery] newSession =
        some [frozenAuthor frozenBook [("shelf", .list [.object [("floor", .int 2)]])]] := by cbv
    have hsecond : shelvedLibrary.frozenRows 4 [askOne bookQuery, askOne authorQuery] newSession =
        some [frozenAuthor frozenBook [("shelf", .list [.object [("floor", .null)]])]] := by cbv
    exact Env.differ_of_frozenRows hfirst hsecond (by decide)
  · have hfirst : assigningLibrary.frozenRows 4 [askOne authorQuery] newSession =
        some [frozenAuthor frozenBook []] := by cbv
    have hsecond : assigningLibrary.frozenRows 4 [askOne authorQuery,
        .ofStatement assignBook (.object ⟨0⟩) .unbounded, askOne authorQuery] newSession =
        some [frozenAuthor (.int 5) []] := by cbv
    exact Env.differ_of_frozenRows hfirst hsecond (by decide)

end ResultCache
