import ResultCache.Proofs.Session.Constant

/-!
# What came of which query

A ledger beside a session with nested selects says what the data source told for every key, and of
every object that came of a query whether the data source made it for an answer or it was made of a
row. `Ledger.Fits` is the invariant of such a session while queries run inside one another: what a
session holds for a key are the objects made of the rows, in order; an object has the columns of its
row; and each of its nested properties has the value that the results for the nested key give it, or
waits for them (`State.Settled`).

`Ledger.Later` is what a query that runs inside others leaves as it was.
-/
namespace ResultCache

/-- Where an object comes from. -/
inductive Home where
  /-- the data source made it when it answered the key -/
  | answer (k : Key)
  /-- it was made of a row of the answer -/
  | row (k : Key) (i : Nat)

structure Ledger where
  told : Key → Option Told
  home : ObjId → Option Home

variable {τ : Type}

namespace State

/-- The property has the value that the session's results for the key give it. -/
def Done (s : State τ) (o : ObjId) (n : NestedSelect) (k : Key) : Prop :=
  ∃ ws v, s.session.loaded.get? k = some (.rows ws) ∧ n.target.extract ws = .ok v ∧
    s.heap.read o n.property = some v

/-- The property is done, or waits for the results. -/
def Settled (s : State τ) (o : ObjId) (n : NestedSelect) (k : Key) : Prop :=
  s.Done o n k ∨ ⟨o, n.property, k, n.target⟩ ∈ s.session.deferred

/-- A settled property stays so while the results stay and it is not set. -/
theorem Settled.later {s t : State τ} {o : ObjId} {n : NestedSelect} {k : Key}
    (hs : s.Settled o n k)
    (hloaded : ∀ {j ws}, s.session.loaded.get? j = some (.rows ws) →
      t.session.loaded.get? j = some (.rows ws))
    (hdeferred : ∀ d ∈ s.session.deferred, d ∈ t.session.deferred)
    (hread : t.heap.read o n.property = s.heap.read o n.property) : t.Settled o n k := by
  rcases hs with ⟨ws, v, hws, hv, ho⟩ | hd
  · exact .inl ⟨ws, v, hloaded hws, hv, hread.trans ho⟩
  · exact .inr (hdeferred _ hd)

end State

namespace Ledger

def empty : Ledger := ⟨fun _ => none, fun _ => none⟩

instance (T : Told) (o : ObjId) : Decidable (T.Made o) :=
  inferInstanceAs (Decidable (T.before.size ≤ o.index ∧ o.index < T.after.size))

/-- The data source tells something for a key. -/
def tell (A : Ledger) (k : Key) (T : Told) : Ledger :=
  ⟨Function.update A.told k (some T), fun o => if T.Made o then some (.answer k) else A.home o⟩

/-- An object is made of a row. -/
def place (A : Ledger) (o : ObjId) (k : Key) (i : Nat) : Ledger :=
  ⟨A.told, Function.update A.home o (some (.row k i))⟩

section

variable (A : Ledger) {o p : ObjId} {k j : Key} (i : Nat) {T : Told}

theorem told_tell_self (k : Key) (T : Told) : (A.tell k T).told k = some T :=
  Function.update_self ..

theorem told_tell_of_ne (hj : j ≠ k) : (A.tell k T).told j = A.told j :=
  Function.update_of_ne hj ..

theorem home_tell_made (k : Key) (ho : T.Made o) : (A.tell k T).home o = some (.answer k) :=
  if_pos ho

theorem home_tell_of_not_made (k : Key) (ho : ¬ T.Made o) : (A.tell k T).home o = A.home o :=
  if_neg ho

theorem home_place_self (o : ObjId) (k : Key) : (A.place o k i).home o = some (.row k i) :=
  Function.update_self ..

theorem home_place_of_ne (k : Key) (hp : p ≠ o) : (A.place o k i).home p = A.home p :=
  Function.update_of_ne hp ..

end

/-- The object was made of the row. -/
def Row (A : Ledger) (o : ObjId) (T : Told) (r : Record) : Prop :=
  ∃ k i, A.home o = some (.row k i) ∧ A.told k = some T ∧ T.rows[i]? = some r

/-- These are the objects made of the rows for a key so far. -/
def Lists (A : Ledger) (k : Key) (os : List ObjId) : Prop :=
  ∀ i o, os[i]? = some o ↔ A.home o = some (.row k i)

/-- The object was made of a row for a key that is still loading. -/
def Making (A : Ledger) (s : State τ) (o : ObjId) : Prop :=
  ∃ k i, A.home o = some (.row k i) ∧ s.session.loaded.get? k = some .loading

variable {W : Scheme τ} {A A' A'' : Ledger} {s s' s'' : State τ} {o : ObjId} {T : Told}
  {r : Record} {k : Key}

theorem Row.unique {T' : Told} {r' : Record} (h : A.Row o T r) (h' : A.Row o T' r') :
    T = T' ∧ r = r' := by
  obtain ⟨k, i, ho, hT, hr⟩ := h
  obtain ⟨k', i', ho', hT', hr'⟩ := h'
  rw [ho] at ho'
  cases ho'
  rw [hT] at hT'
  cases hT'
  rw [hr] at hr'
  cases hr'
  exact ⟨rfl, rfl⟩

/-- Whether a row became a new object says nothing of the others. -/
theorem row_place_of_ne {p : ObjId} {i : Nat} (ho : o ≠ p) (h : (A.place p k i).Row o T r) :
    A.Row o T r := by
  obtain ⟨j, i', ho', hT, hr⟩ := h
  rw [home_place_of_ne A i k ho] at ho'
  exact ⟨j, i', ho', hT, hr⟩

theorem row_place_self {p : ObjId} {i : Nat} {T' : Told} {r' : Record} (hT : A.told k = some T)
    (hr : T.rows[i]? = some r) (h : (A.place p k i).Row p T' r') : T' = T ∧ r' = r := by
  refine h.unique ⟨k, i, home_place_self A i p k, hT, hr⟩

/-- A ledger that tells no contradictions. -/
structure Sound (W : Scheme τ) (A : Ledger) : Prop where
  answers : ∀ {k T}, A.told k = some T → W.Answers k T
  answer : ∀ {o k}, A.home o = some (.answer k) ↔ ∃ T, A.told k = some T ∧ T.Made o
  row : ∀ {o k i}, A.home o = some (.row k i) →
    ∃ T r, A.told k = some T ∧ T.rows[i]? = some r
  shared : ∀ {o}, W.shared o → A.home o = none

theorem Sound.place (hA : A.Sound W) (hT : A.told k = some T) {i : Nat} (hr : T.rows[i]? = some r)
    {p : ObjId} (hp : A.home p = none) (hshared : ¬ W.shared p) : (A.place p k i).Sound W := by
  have hne : ∀ {o x}, A.home o = some x → o ≠ p := fun ho he => by
    rw [he, hp] at ho
    cases ho
  refine ⟨hA.answers, fun {o j} => ?_, fun {o j i'} ho => ?_, fun {o} ho => ?_⟩
  · refine Iff.trans ?_ hA.answer
    by_cases ho : o = p
    · rw [ho, home_place_self, hp]
      simp
    · rw [home_place_of_ne A i k ho]
  · by_cases he : o = p
    · rw [he, home_place_self] at ho
      cases ho
      exact ⟨T, r, hT, hr⟩
    · rw [home_place_of_ne A i k he] at ho
      exact hA.row ho
  · have he : o ≠ p := fun he => hshared (he ▸ ho)
    rw [home_place_of_ne A i k he]
    exact hA.shared ho

theorem Sound.tell (hA : A.Sound W) (hk : A.told k = none) (hT : W.Answers k T)
    (hmade : ∀ {o}, T.Made o → A.home o = none) : (A.tell k T).Sound W := by
  have hne : ∀ {j T'}, A.told j = some T' → j ≠ k := fun hT' he => by
    rw [he, hk] at hT'
    cases hT'
  refine ⟨fun {j T'} hT' => ?_, fun {o j} => ⟨fun ho => ?_, ?_⟩, fun {o j i} ho => ?_,
    fun {o} ho => ?_⟩
  · by_cases hj : j = k
    · rw [hj, told_tell_self] at hT'
      cases hT'
      exact hj ▸ hT
    · rw [told_tell_of_ne A hj] at hT'
      exact hA.answers hT'
  · by_cases hm : T.Made o
    · rw [home_tell_made A k hm] at ho
      cases ho
      exact ⟨T, told_tell_self A k T, hm⟩
    · rw [home_tell_of_not_made A k hm] at ho
      obtain ⟨T', hT', hm'⟩ := hA.answer.1 ho
      exact ⟨T', (told_tell_of_ne A (hne hT')).trans hT', hm'⟩
  · rintro ⟨T', hT', hm'⟩
    by_cases hj : j = k
    · rw [hj, told_tell_self] at hT'
      cases hT'
      rw [home_tell_made A k hm', hj]
    · rw [told_tell_of_ne A hj] at hT'
      have ho := hA.answer.2 ⟨T', hT', hm'⟩
      have hm : ¬ T.Made o := fun hm => by
        rw [hmade hm] at ho
        cases ho
      rw [home_tell_of_not_made A k hm, ho]
  · by_cases hm : T.Made o
    · rw [home_tell_made A k hm] at ho
      cases ho
    · rw [home_tell_of_not_made A k hm] at ho
      obtain ⟨T', r, hT', hr⟩ := hA.row ho
      exact ⟨T', r, (told_tell_of_ne A (hne hT')).trans hT', hr⟩
  · rw [home_tell_of_not_made A k (Scheme.not_made_of_shared hT ho)]
    exact hA.shared ho

variable (W)

/-- All nested properties of the object are settled. -/
def Filled (A : Ledger) (s : State τ) (o : ObjId) : Prop :=
  ∀ T r, A.Row o T r → ∀ n ∈ W.selects T, s.Settled o n (W.nestedKey T n r)

/-- What the session can hold for a key. -/
inductive Holds (A : Ledger) (s : State τ) (k : Key) (T : Told) : Entry → Prop where
  | loading : Holds A s k T .loading
  | rows {os : List ObjId} (hos : A.Lists k os) (hlen : os.length = T.rows.length)
      (hfilled : ∀ o ∈ os, A.Filled W s o) : Holds A s k T (.rows (os.map .object))

/-- What can wait for the results of a key. -/
structure Waits (A : Ledger) (s : State τ) (d : Session.Deferred) : Prop where
  asked : s.session.loaded.contains d.key
  nested : ∃ o T r n, A.Row o T r ∧ n ∈ W.selects T ∧
    d = ⟨o, n.property, W.nestedKey T n r, n.target⟩

/-- The ledger says what is true of the session and its objects. -/
structure Fits (A : Ledger) (s : State τ) : Prop where
  sound : A.Sound W
  config : s.session.config = W.config
  given : Heap.AgreeOn W.shared W.given s.heap
  known : ∀ {o x}, A.home o = some x → o.index < s.heap.size
  asked : ∀ {k T}, A.told k = some T → s.session.loaded.contains k
  made : ∀ {k T o}, A.told k = some T → T.Made o → s.heap.record? o = T.after.record? o
  columns : ∀ {o T r}, A.Row o T r → ∀ name, (∀ n ∈ W.selects T, n.property ≠ name) →
    s.heap.read o name = NameMap.get? r name
  held : ∀ {k e}, s.session.loaded.get? k = some e →
    ∃ T, A.told k = some T ∧ A.Holds W s k T e
  waits : ∀ d ∈ s.session.deferred, A.Waits W s d

variable {W}

/-- What happens while a query runs. Objects of before are left alone, except those of `own`; what
the session held it still holds; and only `key` gets new marks or rows. -/
structure Later (own : ObjId → Prop) (key : Option Key) (A : Ledger) (s : State τ) (A' : Ledger)
    (s' : State τ) : Prop where
  depth : s'.session.depth = s.session.depth
  size_le : s.heap.size ≤ s'.heap.size
  records : ∀ {o x}, o.index < s.heap.size → A.home o = some x → ¬ own o →
    s'.heap.record? o = s.heap.record? o
  loaded : ∀ {j e}, s.session.loaded.get? j = some e → s'.session.loaded.get? j = some e
  marks : ∀ {j}, s'.session.loaded.get? j = some .loading →
    s.session.loaded.get? j = some .loading ∨ key = some j
  deferred : ∀ d ∈ s.session.deferred, d ∈ s'.session.deferred
  told : ∀ {j T}, A.told j = some T → A'.told j = some T
  home : ∀ {o}, o.index < s.heap.size → A'.home o = A.home o
  rows : ∀ {o j i}, A'.home o = some (.row j i) →
    A.home o = some (.row j i) ∨ A.told j = none ∨ key = some j

variable {own own' : ObjId → Prop} {key key' : Option Key}

/-- No object is exempt. -/
def nothing : ObjId → Prop := fun _ => False

/-- Nothing new is told, made or held. -/
theorem Later.quiet (hdepth : s'.session.depth = s.session.depth)
    (hloaded : s'.session.loaded = s.session.loaded) (hsize : s.heap.size ≤ s'.heap.size)
    (hrecords : ∀ {o x}, A.home o = some x → ¬ own o → s'.heap.record? o = s.heap.record? o)
    (hdeferred : ∀ d ∈ s.session.deferred, d ∈ s'.session.deferred) : Later own key A s A s' where
  depth := hdepth
  size_le := hsize
  records _ hx hn := hrecords hx hn
  loaded he := hloaded ▸ he
  marks hj := .inl (hloaded ▸ hj)
  deferred := hdeferred
  told hT := hT
  home _ := rfl
  rows ho := .inl ho

theorem Later.refl (A : Ledger) (s : State τ) : Later own key A s A s :=
  .quiet rfl rfl (Nat.le_refl _) (fun _ _ => rfl) fun _ hd => hd

theorem Later.mono (h : Later own none A s A' s') (hown : ∀ o, own o → own' o) :
    Later own' key A s A' s' where
  depth := h.depth
  size_le := h.size_le
  records ho hx hn := h.records ho hx fun hown' => hn (hown _ hown')
  loaded := h.loaded
  marks hj := (h.marks hj).imp_right fun hk => nomatch hk
  deferred := h.deferred
  told := h.told
  home := h.home
  rows ho := (h.rows ho).imp_right (Or.imp_right fun hk => nomatch hk)

theorem Later.trans (h : Later own key A s A' s') (h' : Later own' key A' s' A'' s'')
    (hown : ∀ o, o.index < s.heap.size → own' o → own o) : Later own key A s A'' s'' where
  depth := h'.depth.trans h.depth
  size_le := Nat.le_trans h.size_le h'.size_le
  records ho hx hn := by
    have ho' := Nat.lt_of_lt_of_le ho h.size_le
    rw [h'.records ho' ((h.home ho).trans hx) fun hn' => hn (hown _ ho hn'), h.records ho hx hn]
  loaded he := h'.loaded (h.loaded he)
  marks hj := (h'.marks hj).elim h.marks .inr
  deferred d hd := h'.deferred d (h.deferred d hd)
  told hT := h'.told (h.told hT)
  home ho := (h'.home (Nat.lt_of_lt_of_le ho h.size_le)).trans (h.home ho)
  rows {o j i} ho := by
    rcases h'.rows ho with ho | hj | hk
    · exact h.rows ho
    · refine .inr (.inl ?_)
      cases hT : A.told j with
      | none => rfl
      | some T =>
        rw [h.told hT] at hj
        cases hj
    · exact .inr (.inr hk)

/-- What happens one level further in. -/
theorem Later.of_enter (h : Later own key A s.enter A' s') : Later own key A s A' s'.leave where
  depth := by
    have hdepth : s'.session.depth = s.session.depth + 1 := h.depth
    change s'.session.depth - 1 = s.session.depth
    rw [hdepth, Nat.add_sub_cancel]
  size_le := h.size_le
  records := h.records
  loaded := h.loaded
  marks := h.marks
  deferred := h.deferred
  told := h.told
  home := h.home
  rows := h.rows

/-- Rows take the place of the mark, and nothing is left of the run but what it brought about. -/
theorem Later.keep (h : Later own (some k) A s A' s') (hk : s.session.loaded.get? k = none)
    (htold : A.told k = none) (hheap : s''.heap = s'.heap)
    (hdepth : s''.session.depth = s'.session.depth)
    (hdeferred : s''.session.deferred = s'.session.deferred)
    {vs : List Value} (hself : s''.session.loaded.get? k = some (.rows vs))
    (hother : ∀ {j}, j ≠ k → s''.session.loaded.get? j = s'.session.loaded.get? j) :
    Later own none A s A' s'' where
  depth := hdepth.trans h.depth
  size_le := hheap ▸ h.size_le
  records ho hx hn := hheap ▸ h.records ho hx hn
  loaded {j e} he := by
    have hj : j ≠ k := fun hj => by
      rw [hj, hk] at he
      cases he
    exact (hother hj).trans (h.loaded he)
  marks {j} hj := by
    by_cases hjk : j = k
    · rw [hjk, hself] at hj
      cases hj
    · rw [hother hjk] at hj
      exact .inl ((h.marks hj).resolve_right fun he => hjk (Option.some.inj he).symm)
  deferred d hd := hdeferred ▸ h.deferred d hd
  told := h.told
  home := h.home
  rows {o j i} ho := by
    rcases h.rows ho with ho | hnone | hkey
    · exact .inl ho
    · exact .inr (.inl hnone)
    · cases hkey
      exact .inr (.inl htold)

/-- Objects keep the rows they were made of. -/
theorem Later.row (h : Later own key A s A' s') (ho : o.index < s.heap.size) (hr : A.Row o T r) :
    A'.Row o T r := by
  obtain ⟨k, i, hk, hT, hr⟩ := hr
  exact ⟨k, i, (h.home ho).trans hk, h.told hT, hr⟩

theorem Later.row_of_home (h : Later own key A s A' s') (hA : A.Fits W s) {x : Home}
    (hx : A.home o = some x) (hr : A'.Row o T r) : A.Row o T r := by
  obtain ⟨k, i, hk, hT, hr⟩ := hr
  rw [h.home (hA.known hx)] at hk
  obtain ⟨T₀, r₀, hT₀, hr₀⟩ := hA.sound.row hk
  rw [h.told hT₀] at hT
  cases hT
  exact ⟨k, i, hk, hT₀, hr⟩

theorem Later.contains (h : Later own key A s A' s') {j : Key}
    (hj : s.session.loaded.contains j) : s'.session.loaded.contains j := by
  rw [Table.contains, Option.isSome_iff_exists] at hj ⊢
  obtain ⟨e, he⟩ := hj
  exact ⟨e, h.loaded he⟩

theorem Filled.later (ho : A.Filled W s o) (hA : A.Fits W s) (h : Later own key A s A' s')
    {x : Home} (hx : A.home o = some x) (hown : ¬ own o) : A'.Filled W s' o := by
  intro T r hr n hn
  refine (ho T r (h.row_of_home hA hx hr) n hn).later h.loaded h.deferred ?_
  rw [Heap.read, Heap.read, h.records (hA.known hx) hx hown]

/-- What is held stays what it is while filled objects stay filled. -/
theorem Holds.imp {e : Entry} (he : A.Holds W s k T e)
    (hfill : ∀ {o}, A.Filled W s o → A.Filled W s' o) : A.Holds W s' k T e := by
  cases he with
  | loading => exact .loading
  | rows hos hlen hfilled => exact .rows hos hlen fun o ho => hfill (hfilled o ho)

/-- A run leaves the rows of other keys as they are. -/
theorem Lists.later {os : List ObjId} (hos : A.Lists k os) (hA : A.Fits W s)
    (h : Later own key A s A' s') (hT : A.told k = some T) (hkey : key ≠ some k) :
    A'.Lists k os := by
  refine fun i o => ⟨fun ho => ?_, fun ho => ?_⟩
  · have hhome := (hos i o).1 ho
    rw [h.home (hA.known hhome), hhome]
  · rcases h.rows ho with ho | hnone | hsome
    · exact (hos i o).2 ho
    · rw [hT] at hnone
      cases hnone
    · exact absurd hsome hkey

/-- What is held stays what it is while the objects made of it are left alone. -/
theorem Holds.later {e : Entry} (he : A.Holds W s k T e) (hA : A.Fits W s)
    (h : Later own key A s A' s') (hT : A.told k = some T) (hk : s.session.loaded.get? k = some e)
    (hown : ∀ o, own o → A.Making s o) (hkey : key = some k → e = .loading) :
    A'.Holds W s' k T e := by
  cases he with
  | loading => exact .loading
  | @rows os hos hlen hfilled =>
    refine .rows (hos.later hA h hT fun hk => nomatch hkey hk) hlen fun o ho => ?_
    obtain ⟨i, hi⟩ := List.mem_iff_getElem?.1 ho
    have hhome := (hos i o).1 hi
    refine (hfilled o ho).later hA h hhome fun hmine => ?_
    obtain ⟨j, i', hj, hloading⟩ := hown o hmine
    rw [hhome] at hj
    cases hj
    rw [hk] at hloading
    cases hloading

theorem Waits.later {d : Session.Deferred} (hd : A.Waits W s d) (hA : A.Fits W s)
    (h : Later own key A s A' s') : A'.Waits W s' d := by
  obtain ⟨o, T, r, n, hr, hn⟩ := hd.nested
  obtain ⟨k, i, ho, -, -⟩ := id hr
  exact ⟨h.contains hd.asked, o, T, r, n, h.row (hA.known ho) hr, hn⟩

namespace Fits

/-- A key that nothing was told for is not loaded. -/
theorem told_eq_none (hA : A.Fits W s) (hk : s.session.loaded.get? k = none) : A.told k = none := by
  cases hT : A.told k with
  | none => rfl
  | some T =>
    have hc := hA.asked hT
    rw [Table.contains, hk] at hc
    cases hc

/-- Changes of the heap and of what waits, where no object of the ledger is changed but nested
properties of objects that are being made. -/
theorem change (hA : A.Fits W s) (own : ObjId → Prop)
    (hconfig : s'.session.config = s.session.config)
    (hloaded : s'.session.loaded = s.session.loaded)
    (hsize : s.heap.size ≤ s'.heap.size)
    (hshared : Heap.AgreeOn W.shared s.heap s'.heap)
    (hrecords : ∀ {o x}, A.home o = some x → ¬ own o → s'.heap.record? o = s.heap.record? o)
    (hown : ∀ o, own o → A.Making s o)
    (hcolumns : ∀ {o T r}, own o → A.Row o T r → ∀ name,
      (∀ n ∈ W.selects T, n.property ≠ name) → s'.heap.read o name = s.heap.read o name)
    (hdeferred : ∀ d ∈ s.session.deferred, d ∈ s'.session.deferred)
    (hwaits : ∀ d ∈ s'.session.deferred, d ∈ s.session.deferred ∨ A.Waits W s d) :
    A.Fits W s' := by
  let t : State τ := { s' with session := { s'.session with depth := s.session.depth } }
  have hlater : Later own none A s A t := .quiet rfl hloaded hsize hrecords hdeferred
  have hread : ∀ o k, A.home o = some (.answer k) → s'.heap.record? o = s.heap.record? o := by
    intro o k ho
    refine hrecords ho fun hmine => ?_
    obtain ⟨j, i, hj, -⟩ := hown o hmine
    rw [ho] at hj
    cases hj
  refine ⟨hA.sound, hconfig.trans hA.config, hA.given.trans hshared,
    fun ho => Nat.lt_of_lt_of_le (hA.known ho) hsize, fun hT => hloaded ▸ hA.asked hT,
    fun {k T o} hT ho => ?_, fun {o T r} hr name hname => ?_, fun {k e} he => ?_, fun d hd => ?_⟩
  · rw [hread o k (hA.sound.answer.2 ⟨T, hT, ho⟩), hA.made hT ho]
  · rw [← hA.columns hr name hname]
    by_cases hmine : own o
    · exact hcolumns hmine hr name hname
    · obtain ⟨k, i, ho, -, -⟩ := hr
      rw [Heap.read, Heap.read, hrecords ho hmine]
  · rw [hloaded] at he
    obtain ⟨T, hT, hholds⟩ := hA.held he
    have hholds' := hholds.later hA hlater hT he hown fun hk => by cases hk
    exact ⟨T, hT, hholds'.imp fun ho => ho⟩
  · have hwait := (hwaits d hd).elim (hA.waits d) id
    exact ⟨(hwait.later hA hlater).asked, hwait.nested⟩

/-- Changes of objects that are not in the ledger. -/
theorem apart (hA : A.Fits W s) (hconfig : s'.session.config = s.session.config)
    (hloaded : s'.session.loaded = s.session.loaded)
    (hdeferred : s'.session.deferred = s.session.deferred) (hsize : s.heap.size ≤ s'.heap.size)
    (hshared : Heap.AgreeOn W.shared s.heap s'.heap)
    (hrecords : ∀ {o x}, A.home o = some x → s'.heap.record? o = s.heap.record? o) :
    A.Fits W s' :=
  hA.change nothing hconfig hloaded hsize hshared (fun ho _ => hrecords ho)
    (fun _ hp => hp.elim) (fun hp => hp.elim) (fun _ hd => hdeferred ▸ hd)
    fun _ hd => .inl (hdeferred ▸ hd)

/-- Changes of what the ledger does not look at. -/
theorem same (hA : A.Fits W s) (hconfig : s'.session.config = s.session.config)
    (hloaded : s'.session.loaded = s.session.loaded)
    (hdeferred : s'.session.deferred = s.session.deferred) (hheap : s'.heap = s.heap) :
    A.Fits W s' :=
  hA.apart hconfig hloaded hdeferred (Nat.le_of_eq (congrArg Heap.size hheap.symm))
    (fun _ _ => by rw [hheap]) fun _ => by rw [hheap]

/-- A nested property of an object that is being made is set. -/
theorem write (hA : A.Fits W s) (ho : A.Making s o) (hr : A.Row o T r) {n : NestedSelect}
    (hn : n ∈ W.selects T) (v : Value) : A.Fits W (s.withHeap (s.heap.write o n.property v)) := by
  refine hA.change (· = o) rfl rfl (Nat.le_of_eq (Heap.size_write _ _ _ _).symm)
    (Heap.agreeOn_write (fun hshared => ?_) _ _) (fun _ hne => Heap.record?_write_of_ne _ _ _ hne)
    (fun p hp => hp ▸ ho) (fun hp hr' name hname => ?_) (fun _ hd => hd) fun _ hd => .inl hd
  · obtain ⟨k, i, hk, -⟩ := ho
    rw [hA.sound.shared hshared] at hk
    cases hk
  · subst hp
    obtain ⟨rfl, rfl⟩ := hr.unique hr'
    exact Heap.read_write_of_ne _ _ _ (hname n hn).symm

/-- A nested property is left to wait. -/
theorem wait (hA : A.Fits W s) {d : Session.Deferred} (hd : A.Waits W s d) :
    A.Fits W { s with session := { s.session with deferred := s.session.deferred ++ [d] } } := by
  refine hA.change nothing rfl rfl (Nat.le_refl _) (fun _ _ => rfl) (fun _ _ => rfl)
    (fun _ hn => hn.elim) (fun hn => hn.elim) (fun e he => List.mem_append_left _ he)
    fun e he => ?_
  rcases List.mem_append.1 he with he | he
  · exact .inl he
  · rw [List.mem_singleton.1 he]
    exact .inr hd

/-- Objects that there are differ from the one that is made next. -/
theorem ne_alloc {h : Heap} (ho : o.index < h.size) (r : Record) : o ≠ (h.alloc r).1 := by
  intro he
  rw [he] at ho
  exact Nat.lt_irrefl _ ho

theorem later_place (A : Ledger) (s : State τ) (k : Key) (i : Nat) (r : Record) :
    Later nothing (some k) A s (A.place (s.heap.alloc r).1 k i)
      (s.withHeap (s.heap.alloc r).2) where
  depth := rfl
  size_le := (Heap.grows_alloc s.heap r).size_le
  records ho _ _ := (Heap.grows_alloc s.heap r).record? _ ho
  loaded he := he
  marks hj := .inl hj
  deferred _ hd := hd
  told hT := hT
  home ho := A.home_place_of_ne i k (ne_alloc ho r)
  rows {o j i'} ho := by
    by_cases hne : o = (s.heap.alloc r).1
    · rw [hne, home_place_self] at ho
      cases ho
      exact .inr (.inr rfl)
    · rw [home_place_of_ne A i k hne] at ho
      exact .inl ho

/-- Shared objects were there before everything else. -/
theorem shared_known (hA : A.Fits W s) (ho : W.shared o) : o.index < s.heap.size := by
  obtain ⟨r, hr, -⟩ := W.constant.closed o ho
  exact Heap.lt_size_of_record? ((hA.given o ho).trans hr)

/-- A row becomes an object. -/
theorem place (hA : A.Fits W s) (hk : s.session.loaded.get? k = some .loading)
    (hT : A.told k = some T) {i : Nat} (hr : T.rows[i]? = some r) :
    (A.place (s.heap.alloc r).1 k i).Fits W (s.withHeap (s.heap.alloc r).2) := by
  have hgrows := Heap.grows_alloc s.heap r
  have hlater := later_place A s k i r
  have hself : ¬ (s.heap.alloc r).1.index < s.heap.size := Nat.lt_irrefl _
  have hnone : A.home (s.heap.alloc r).1 = none :=
    Option.eq_none_iff_forall_ne_some.2 fun x hx => hself (hA.known hx)
  have hsound := hA.sound.place hT hr hnone fun hshared => hself (hA.shared_known hshared)
  refine ⟨hsound, hA.config, fun o ho => ?_, fun {o x} ho => ?_, hA.asked,
    fun {j T' o} hT' ho => ?_, fun {o T' r'} hr' name hname => ?_, fun {j e} he => ?_,
    fun d hd => (hA.waits d hd).later hA hlater⟩
  · exact (hgrows.record? o (hA.shared_known ho)).trans (hA.given o ho)
  · by_cases hne : o = (s.heap.alloc r).1
    · rw [hne]
      exact Heap.lt_size_of_record? (Heap.record?_alloc_self s.heap r)
    · rw [home_place_of_ne A i k hne] at ho
      exact Nat.lt_of_lt_of_le (hA.known ho) hgrows.size_le
  · have hknown := hA.known (hA.sound.answer.2 ⟨T', hT', ho⟩)
    exact (hgrows.record? o hknown).trans (hA.made hT' ho)
  · by_cases hne : o = (s.heap.alloc r).1
    · subst hne
      obtain ⟨rfl, rfl⟩ := row_place_self hT hr hr'
      change ((s.heap.alloc r').2.record? _).bind _ = _
      rw [Heap.record?_alloc_self]
      rfl
    · have hrow := row_place_of_ne hne hr'
      rw [← hA.columns hrow name hname]
      obtain ⟨j, i', ho, -, -⟩ := hrow
      exact congrArg (Option.bind · _) (hgrows.record? o (hA.known ho))
  · obtain ⟨T', hT', hholds⟩ := hA.held he
    refine ⟨T', hT', hholds.later hA hlater hT' he (fun _ hn => hn.elim) fun hkj => ?_⟩
    cases hkj
    exact Option.some.inj (he.symm.trans hk)

/-- The session when the data source has told something for a key that it holds nothing for. -/
def told (s : State τ) (k : Key) (T : Told) (t : τ) : State τ :=
  { s.mark k with world := { s.world with heap := T.after, source := t } }

theorem later_tell (hA : A.Fits W s) (hk : s.session.loaded.get? k = none) (hT : W.Answers k T)
    (hbefore : T.before = s.heap) (hsets : ∀ o, T.query.Sets o → A.home o = none) (t : τ) :
    Later nothing (some k) A s (A.tell k T) (told s k T t) where
  depth := rfl
  size_le := hbefore ▸ W.constant.size_le hT.tells hT.agree
  records {o x} ho hx _ := by
    have hset : ¬ T.query.Sets o := fun hset => by
      rw [hsets o hset] at hx
      cases hx
    rw [← hbefore] at ho ⊢
    exact W.constant.leaves hT.tells hT.agree o ho hset
  loaded {j e} he := by
    have hj : j ≠ k := fun hj => by
      rw [hj, hk] at he
      cases he
    exact (Table.get?_insert_of_ne _ _ hj).trans he
  marks {j} hj := by
    by_cases hjk : j = k
    · exact .inr (congrArg some hjk.symm)
    · exact .inl ((Table.get?_insert_of_ne _ _ hjk).symm.trans hj)
  deferred _ hd := hd
  told {j T'} hT' := by
    have hj : j ≠ k := fun hj => by
      rw [hj, hA.told_eq_none hk] at hT'
      cases hT'
    exact (told_tell_of_ne A hj).trans hT'
  home {o} ho := A.home_tell_of_not_made k fun hm => by
    have hle := hm.1
    rw [hbefore] at hle
    exact absurd ho (Nat.not_lt.2 hle)
  rows {o j i} ho := by
    by_cases hm : T.Made o
    · rw [home_tell_made A k hm] at ho
      cases ho
    · rw [home_tell_of_not_made A k hm] at ho
      exact .inl ho

/-- The data source is asked for a key that the session holds nothing for. -/
theorem tell (hA : A.Fits W s) (hk : s.session.loaded.get? k = none) (hT : W.Answers k T)
    (hbefore : T.before = s.heap) (hsets : ∀ o, T.query.Sets o → A.home o = none) (t : τ) :
    (A.tell k T).Fits W (told s k T t) := by
  have hlater := later_tell hA hk hT hbefore hsets t
  have htold := hA.told_eq_none hk
  have hmade : ∀ {o}, T.Made o → A.home o = none := fun {o} hm =>
    Option.eq_none_iff_forall_ne_some.2 fun x hx => by
      have hle := hm.1
      rw [hbefore] at hle
      exact absurd (hA.known hx) (Nat.not_lt.2 hle)
  have hself : (told s k T t).session.loaded.get? k = some .loading := Table.get?_insert_self ..
  have hrecords : ∀ {o x}, A.home o = some x → T.after.record? o = s.heap.record? o := fun ho =>
    hlater.records (hA.known ho) ho id
  refine ⟨hA.sound.tell htold hT hmade, hA.config, Scheme.agreeOn_after hT, fun {o x} ho => ?_,
    fun {j T'} hT' => ?_, fun {j T' o} hT' ho => ?_, fun {o T' r} hr name hname => ?_,
    fun {j e} he => ?_, fun d hd => (hA.waits d hd).later hA hlater⟩
  · by_cases hm : T.Made o
    · exact hm.2
    · rw [home_tell_of_not_made A k hm] at ho
      exact Nat.lt_of_lt_of_le (hA.known ho) hlater.size_le
  · by_cases hj : j = k
    · rw [hj, Table.contains, hself]
      rfl
    · rw [told_tell_of_ne A hj] at hT'
      exact hlater.contains (hA.asked hT')
  · by_cases hj : j = k
    · rw [hj, told_tell_self] at hT'
      cases hT'
      rfl
    · rw [told_tell_of_ne A hj] at hT'
      exact (hrecords (hA.sound.answer.2 ⟨T', hT', ho⟩)).trans (hA.made hT' ho)
  · obtain ⟨j, i, ho, -, -⟩ := id hr
    have hm : ¬ T.Made o := fun hm => by
      rw [home_tell_made A k hm] at ho
      cases ho
    rw [home_tell_of_not_made A k hm] at ho
    rw [← hA.columns (hlater.row_of_home hA ho hr) name hname]
    exact congrArg (Option.bind · _) (hrecords ho)
  · by_cases hj : j = k
    · subst hj
      rw [hself] at he
      cases he
      exact ⟨T, told_tell_self A j T, .loading⟩
    · have he' : s.session.loaded.get? j = some e :=
        (Table.get?_insert_of_ne _ _ hj).symm.trans he
      obtain ⟨T', hT', hholds⟩ := hA.held he'
      refine ⟨T', hlater.told hT', hholds.later hA hlater hT' he' (fun _ hn => hn.elim)
        fun hkj => ?_⟩
      exact absurd (Option.some.inj hkj).symm hj

/-- The rows for a key are there. -/
theorem keep (hA : A.Fits W s) (hk : s.session.loaded.get? k = some .loading)
    (hT : A.told k = some T) {os : List ObjId} (hos : A.Lists k os)
    (hlen : os.length = T.rows.length) (hfilled : ∀ o ∈ os, A.Filled W s o) :
    A.Fits W ((s.unmark k).keepRows k (os.map .object)) := by
  let t : State τ := (s.unmark k).keepRows k (os.map .object)
  have hself : t.session.loaded.get? k = some (.rows (os.map .object)) := Table.get?_insert_self ..
  have hother : ∀ {j}, j ≠ k → t.session.loaded.get? j = s.session.loaded.get? j := fun hj =>
    (Table.get?_insert_of_ne _ _ hj).trans (Table.get?_erase_of_ne _ hj)
  have hcontains : ∀ {j}, s.session.loaded.contains j → t.session.loaded.contains j := by
    intro j hj
    by_cases hjk : j = k
    · rw [hjk, Table.contains, hself]
      rfl
    · rwa [Table.contains, hother hjk]
  have hfill : ∀ {o}, A.Filled W s o → A.Filled W t o := fun ho T r hr n hn =>
    (ho T r hr n hn).later (fun {j ws} hj => by
      have hjk : j ≠ k := fun hjk => by
        rw [hjk, hk] at hj
        cases hj
      exact (hother hjk).trans hj) (fun _ hd => hd) rfl
  refine ⟨hA.sound, hA.config, hA.given, hA.known, fun hT' => hcontains (hA.asked hT'), hA.made,
    hA.columns, fun {j e} he => ?_, fun d hd => ?_⟩
  · by_cases hjk : j = k
    · rw [hjk] at he ⊢
      cases hself.symm.trans he
      exact ⟨T, hT, .rows hos hlen fun o ho => hfill (hfilled o ho)⟩
    · obtain ⟨T', hT', hholds⟩ := hA.held ((hother hjk).symm.trans he)
      exact ⟨T', hT', hholds.imp hfill⟩
  · have hwait := hA.waits d hd
    exact ⟨hcontains hwait.asked, hwait.nested⟩

end Fits

end Ledger

end ResultCache
