import ResultCache.Proofs.Cache.Isolation
import ResultCache.Proofs.Cache.Twins

/-!
# Layers that only observe

A layer that counts reads or lets one caller through at a time can be laid anywhere into a stack and
no call answers differently. A copying layer can be, too, if callers leave alone the objects of the
rows they put: every call then ends as without it, finds an entry where one was found, and what is
found shows the same; only the objects are others (`Stack.observers_transparent`).

Both are the contract of `CacheOps.Mirrors`, between a stack and one with the layer laid into it. In
the first case the two runs are one (`Lockstep.same`), in the second they have objects of their own
(`Lockstep.apart`).
-/
namespace ResultCache

/-- A run and the run itself. -/
abbrev Lockstep.same : Lockstep := ⟨Heap, id, id, fun _ _ => True, fun _ => trivial⟩

section Passing

variable {σ τ : Type} {B : CacheOps σ} {C : CacheOps τ}

/-- Related reads of one run are the same. -/
theorem Lockstep.reads_same {h : Heap} {r : Result (Option Entry) × Heap × σ}
    {r' : Result (Option Entry) × Heap × τ} :
    Lockstep.same.Reads (fun _ e e' => e = e') h r r' ↔ r.1 = r'.1 ∧ r.2.1 = r'.2.1 := by
  obtain ⟨x, h₁, s⟩ := r
  obtain ⟨y, h₂, t⟩ := r'
  constructor
  · rintro ⟨_, -, rfl, hright, hends⟩
    refine ⟨?_, hright⟩
    cases hends with
    | error f => rfl
    | ok hab =>
      cases hab with
      | none => rfl
      | some he => exact congrArg (fun e => Except.ok (some e)) he
  · rintro ⟨hsame, hheap⟩
    obtain rfl : x = y := hsame
    refine ⟨h₁, trivial, rfl, hheap, ?_⟩
    rcases x with f | _ | e
    · exact .error f
    · exact .ok .none
    · exact .ok (.some rfl)

/-- What two copying layers do in one run. -/
theorem Copying.mirrors_same {Alike : Heap → σ → τ → Prop}
    (hB : B.Mirrors .same (fun _ e e' => e = e') C Alike) :
    (Copying.ops B).Mirrors .same (fun _ e e' => e = e') (Copying.ops C) (LayerAlike Alike) := by
  have hrestore : ∀ {cache cache' : String}, cache = cache' → ∀ {h : Heap}
      {r : Result (Option Entry) × Heap × σ} {r' : Result (Option Entry) × Heap × τ},
      Lockstep.same.Reads (fun _ e e' => e = e') h r r' ∧ Alike h r.2.2 r'.2.2 →
        Lockstep.same.Reads (fun _ e e' => e = e') h
            (restoreBelow cache r) (restoreBelow cache' r') ∧
          LayerAlike Alike h (restoreBelow cache r).2.2 (restoreBelow cache' r').2.2 := by
    rintro cache _ rfl h ⟨x, h₁, s⟩ ⟨_, _, t⟩ ⟨hreads, hs⟩
    obtain ⟨rfl, rfl⟩ := Lockstep.reads_same.1 hreads
    rcases x with f | e
    · exact ⟨Lockstep.reads_same.2 ⟨rfl, rfl⟩, rfl, hs⟩
    · exact ⟨Lockstep.reads_same.2 ⟨rfl, rfl⟩, rfl, hs⟩
  constructor
  case id => exact fun hs => hB.id hs.2
  case later => exact fun hw hs => ⟨hs.1, hB.later hw hs.2⟩
  case size => exact fun now hs => ⟨(hB.size now hs.2).1, hs.1, (hB.size now hs.2).2⟩
  case put =>
    rintro h ⟨⟨⟩, s⟩ ⟨⟨⟩, t⟩ e _ now k ⟨-, hs⟩ rfl
    change (Copying.put B now h k e ((), s)).1 = (Copying.put C now h k e ((), t)).1 ∧
      LayerAlike Alike h (Copying.put B now h k e ((), s)).2 (Copying.put C now h k e ((), t)).2
    rw [Copying.put, Copying.put, hB.id hs]
    rcases stored (C.id t) h e with f | e'
    · exact ⟨rfl, rfl, hs⟩
    · exact ⟨(hB.put now k hs rfl).1, rfl, (hB.put now k hs rfl).2⟩
  case get => exact fun now k hs => hrestore (hB.id hs.2) (hB.get now k hs.2)
  case remove => exact fun now k hs => hrestore (hB.id hs.2) (hB.remove now k hs.2)
  case clear => exact fun now hs => ⟨hs.1, hB.clear now hs.2⟩

/-- Counting a read changes nothing about it. -/
theorem Counting.get_past (B : CacheOps σ) (now : Instant) (h : Heap) (k : Key) (s : Stats × σ) :
    (get B now h k s).1 = (B.get now h k s.2).1 ∧ (get B now h k s).2.1 = (B.get now h k s.2).2.1 ∧
      (get B now h k s).2.2.2 = (B.get now h k s.2).2.2 := by
  rw [get]
  rcases B.get now h k s.2 with ⟨_ | _, h', under⟩ <;> exact ⟨rfl, rfl, rfl⟩

/-- The layer lets one caller through at a time, or counts reads. -/
def Layer.Observes (l : Layer) : Prop := l = .exclusive ∨ l = .counting

/-- Going through a layer that observes, or past it, is the same. -/
theorem Layer.mirrors_past {l : Layer} (hl : l.Observes) (B : CacheOps σ) :
    B.Mirrors .same (fun _ e e' => e = e') (l.ops B) fun _ s t => t.2 = s where
  id := by
    rintro _ _ t rfl
    rcases hl with rfl | rfl <;> rfl
  later _ hs := hs
  size := by
    rintro _ _ t now rfl
    rcases hl with rfl | rfl <;> exact ⟨rfl, rfl⟩
  put := by
    rintro _ _ t e _ now k rfl rfl
    rcases hl with rfl | rfl <;> exact ⟨rfl, rfl⟩
  get := by
    rintro h _ t now k rfl
    rcases hl with rfl | rfl
    · exact ⟨Lockstep.reads_same.2 ⟨rfl, rfl⟩, rfl⟩
    · obtain ⟨hsame, hheap, hbelow⟩ := Counting.get_past B now h k t
      exact ⟨Lockstep.reads_same.2 ⟨hsame.symm, hheap.symm⟩, hbelow⟩
  remove := by
    rintro _ _ t now k rfl
    rcases hl with rfl | rfl <;> exact ⟨Lockstep.reads_same.2 ⟨rfl, rfl⟩, rfl⟩
  clear := by
    rintro _ _ t now rfl
    rcases hl with rfl | rfl <;> rfl

end Passing

/-- Whether what is below a layer is coded. -/
def Layer.codes : Layer → Bool → Bool
  | .copying, _ => true
  | _, coded => coded

section Layers

variable {P : Lockstep} {E : Bool → Bool → P.Moment → Entry → Entry → Prop}

/-- Copying layers keep the contract. -/
def CopiesMirror (P : Lockstep) (E : Bool → Bool → P.Moment → Entry → Entry → Prop) : Prop :=
  ∀ {σ τ : Type} {B : CacheOps σ} {C : CacheOps τ} {Alike : P.Moment → σ → τ → Prop}
    (coded coded' : Bool), B.Mirrors P (E true true) C Alike →
      (Copying.ops B).Mirrors P (E coded coded') (Copying.ops C) (LayerAlike Alike)

theorem copiesMirror_same : CopiesMirror .same fun _ _ _ e e' => e = e' :=
  fun _ _ => Copying.mirrors_same

theorem copiesMirror_apart : CopiesMirror .apart Entry.Twins :=
  fun coded coded' hB => Copying.mirrors hB coded coded'

/-- All layers keep the contract if copying layers do. -/
theorem Layer.mirrors (hcopies : CopiesMirror P E) (l : Layer) (coded coded' : Bool) {σ τ : Type}
    {B : CacheOps σ} {C : CacheOps τ} {Alike : P.Moment → σ → τ → Prop}
    (hB : B.Mirrors P (E (l.codes coded) (l.codes coded')) C Alike) :
    (l.ops B).Mirrors P (E coded coded') (l.ops C) (LayerAlike Alike) := by
  cases l with
  | recency => exact Recency.mirrors hB
  | arrival => exact Arrival.mirrors hB
  | expiry => exact Expiry.mirrors hB
  | gate => exact Gate.mirrors hB
  | copying => exact hcopies coded coded' hB
  | exclusive => exact Exclusive.mirrors hB
  | counting => exact Counting.mirrors hB

end Layers

namespace Stack

/-- Lays a layer into a stack, below some layers. -/
def insert {l : Layer} {inner : List Layer} (x : l.State) :
    (outer : List Layer) → Stack (outer ++ inner) → Stack (outer ++ l :: inner)
  | [], s => (x, s)
  | _ :: outer, s => (s.1, insert x outer s.2)

/-- The outer layers remember the same, and `R` holds of what is below them. -/
def Below {μ : Type} {inner inner' : List Layer}
    (R : Bool → Bool → μ → Stack inner → Stack inner' → Prop) :
    (outer : List Layer) → Bool → Bool → μ → Stack (outer ++ inner) → Stack (outer ++ inner') → Prop
  | [], coded, coded' => R coded coded'
  | l :: outer, coded, coded' => LayerAlike (Below R outer (l.codes coded) (l.codes coded'))

section Below

variable {P : Lockstep} {E : Bool → Bool → P.Moment → Entry → Entry → Prop}
  {inner inner' : List Layer} {R : Bool → Bool → P.Moment → Stack inner → Stack inner' → Prop}

theorem mirrors_below (hcopies : CopiesMirror P E)
    (hR : ∀ coded coded',
      (stackOps inner).Mirrors P (E coded coded') (stackOps inner') (R coded coded'))
    (outer : List Layer) (coded coded' : Bool) :
    (stackOps (outer ++ inner)).Mirrors P (E coded coded') (stackOps (outer ++ inner'))
      (Below R outer coded coded') := by
  induction outer generalizing coded coded' with
  | nil => exact hR coded coded'
  | cons l outer ih => exact l.mirrors hcopies coded coded' (ih _ _)

theorem Below.insert {μ : Type} {l : Layer}
    {R : Bool → Bool → μ → Stack inner → Stack (l :: inner) → Prop} {w : μ} {x : l.State}
    {outer : List Layer} {s : Stack (outer ++ inner)}
    (hR : ∀ coded coded' t, t.store = s.store → R coded coded' w t (x, t)) (coded coded' : Bool) :
    Below R outer coded coded' w s (s.insert x outer) := by
  induction outer generalizing coded coded' with
  | nil => exact hR coded coded' s rfl
  | cons l outer ih => exact ⟨rfl, ih (s := s.2) hR _ _⟩

/-- What holds of the stores below holds of the stores. -/
theorem Below.store {μ : Type} {R : Bool → Bool → μ → Stack inner → Stack inner' → Prop}
    {Q : Store → Store → Prop} {w : μ}
    (hR : ∀ {coded coded' s t}, R coded coded' w s t → Q s.store t.store) {outer : List Layer}
    {coded coded' : Bool} {s : Stack (outer ++ inner)} {t : Stack (outer ++ inner')}
    (hs : Below R outer coded coded' w s t) : Q s.store t.store := by
  induction outer generalizing coded coded' with
  | nil => exact hR hs
  | cons l outer ih => exact ih hs.2

end Below

/-- Two stacks of the same layers, which remember the same, over stores with twins for entries. -/
def Alike : {ls : List Layer} → Bool → Bool → Scope × Scope → Stack ls → Stack ls → Prop
  | [], coded, coded' => fun w => Store.Alike (Entry.Twins coded coded' w)
  | l :: _, coded, coded' => LayerAlike (Alike (l.codes coded) (l.codes coded'))

theorem mirrors_self (ls : List Layer) (coded coded' : Bool) :
    (stackOps ls).Mirrors .apart (Entry.Twins coded coded') (stackOps ls) (Alike coded coded') := by
  induction ls generalizing coded coded' with
  | nil => exact Store.mirrors Entry.Twins.later
  | cons l ls ih => exact l.mirrors copiesMirror_apart _ _ (ih _ _)

/-- Over a new store a stack is alike to itself. -/
theorem alike_self {ls : List Layer} {s : Stack ls} {id : String} (hs : s.store = .perpetual id)
    (coded coded' : Bool) (w : Scope × Scope) : Alike coded coded' w s s := by
  induction ls generalizing coded coded' with
  | nil =>
    obtain rfl : s = Store.perpetual id := hs
    exact ⟨rfl, rfl, rfl, .nil⟩
  | cons l ls ih => exact ⟨rfl, ih (s := s.2) hs _ _⟩

theorem Alike.keys_eq {ls : List Layer} {coded coded' : Bool} {w : Scope × Scope} {s t : Stack ls}
    (hs : Alike coded coded' w s t) : s.store.entries.keys = t.store.entries.keys := by
  induction ls generalizing coded coded' with
  | nil => exact hs.entries.keys
  | cons l ls ih => exact ih hs.2

end Stack

namespace CacheCall

/-- A call is paired with itself at the moment it is made. -/
theorem paired_self (c : CacheCall) :
    ∃ h : Heap, c.Paired .same (fun _ e e' => e = e') h c := by
  cases c with
  | put now h k e => exact ⟨h, .put now k rfl⟩
  | get now h k => exact ⟨h, .get now k⟩
  | remove now h k => exact ⟨h, .remove now k⟩
  | clear now => exact ⟨.empty, .clear now⟩
  | size now => exact ⟨.empty, .size now⟩

theorem Answer.eq_of_paired {h : Heap} {a b : Answer}
    (hab : a.Paired .same (fun _ e e' => e = e') h b) : a = b := by
  cases hab with
  | stored r => rfl
  | found _ hends =>
    cases hends with
    | error f => rfl
    | ok hr =>
      cases hr with
      | none => rfl
      | some he =>
        cases he
        rfl
  | cleared => rfl
  | counted n => rfl

end CacheCall

/-- Two caches side by side in one run answer the same all along. -/
theorem CacheOps.Mirrors.answers_eq {σ τ : Type} {B : CacheOps σ} {C : CacheOps τ}
    {Alike : Heap → σ → τ → Prop} (hB : B.Mirrors .same (fun _ e e' => e = e') C Alike) {h : Heap}
    {s : σ} {t : τ} (hs : Alike h s t) (past : List CacheCall) :
    CacheCall.answers B s past = CacheCall.answers C t past ∧
      Alike h (CacheCall.after B s past) (CacheCall.after C t past) := by
  induction past with
  | nil => exact ⟨rfl, hs⟩
  | cons c past ih =>
    obtain ⟨hanswers, hafter⟩ := ih
    obtain ⟨h', hc⟩ := c.paired_self
    have hmoment : Alike h' (CacheCall.after B s past) (CacheCall.after C t past) :=
      hB.later trivial hafter
    obtain ⟨hanswer, hrun⟩ := hB.run hmoment hc
    rw [CacheCall.answers, CacheCall.answers, hanswers, CacheCall.Answer.eq_of_paired hanswer]
    exact ⟨rfl, hB.later trivial hrun⟩

namespace Stack

/-- A layer that counts reads or lets one caller through at a time changes no answer and nothing in
the store, wherever it is laid into a stack. A copying layer laid into a stack over a new store
changes no answer but for the objects of the rows that are found, and the store has entries for the
same keys all along, if no object is changed after it was put. -/
theorem observers_transparent (outer inner : List Layer) (s : Stack (outer ++ inner)) :
    (∀ l : Layer, l.Observes → ∀ (x : l.State) (past : List CacheCall),
      CacheCall.answers (stackOps (outer ++ l :: inner)) (s.insert x outer) past =
          CacheCall.answers (stackOps (outer ++ inner)) s past ∧
        (CacheCall.after (stackOps (outer ++ l :: inner)) (s.insert x outer) past).store =
          (CacheCall.after (stackOps (outer ++ inner)) s past).store) ∧
    ∀ id, s.store = .perpetual id → ∀ past past' : List CacheCall,
      List.Forall₂ CacheCall.Twin past past' → CacheCall.Untouched past →
      CacheCall.Untouched past' →
      List.Forall₂ CacheCall.Answer.Alike (CacheCall.answers (stackOps (outer ++ inner)) s past)
          (CacheCall.answers (stackOps (outer ++ .copying :: inner))
            (s.insert (l := .copying) () outer) past') ∧
        (CacheCall.after (stackOps (outer ++ inner)) s past).store.entries.keys =
          (CacheCall.after (stackOps (outer ++ .copying :: inner))
            (s.insert (l := .copying) () outer) past').store.entries.keys := by
  constructor
  · intro l hl x past
    have hpast := mirrors_below (R := fun _ _ _ s (t : Stack (l :: inner)) => t.2 = s)
      copiesMirror_same (fun _ _ => l.mirrors_past hl (stackOps inner)) outer false false
    have hinsert : Below (fun _ _ _ s (t : Stack (l :: inner)) => t.2 = s) outer false false
        Heap.empty s (s.insert x outer) := Below.insert (fun _ _ _ _ => rfl) false false
    obtain ⟨hanswers, hafter⟩ := hpast.answers_eq hinsert past
    refine ⟨hanswers.symm, hafter.store (Q := fun s t => t = s) ?_⟩
    rintro _ _ _ t rfl
    rfl
  · intro id hs past past' hpast hleft hright
    have hcopied := mirrors_below (P := .apart)
      (R := fun coded _ w s (t : Stack (.copying :: inner)) => Alike coded true w s t.2)
      copiesMirror_apart
      (fun coded coded' => Copying.mirrors_right (mirrors_self inner coded true) coded') outer
      false false
    have hinsert : ∀ w, Below (fun coded _ w s (t : Stack (.copying :: inner)) =>
        Alike coded true w s t.2) outer false false w s (s.insert (l := .copying) () outer) :=
      fun w => Below.insert (fun _ _ t ht => alike_self (ht.trans hs) _ _ w) false false
    obtain ⟨hanswers, w, -, -, hafter⟩ := hcopied.answers_alike hinsert hpast hleft hright
    refine ⟨hanswers, hafter.store (Q := fun s t => s.entries.keys = t.entries.keys) ?_⟩
    intro _ _ _ t ht
    exact Alike.keys_eq (t := t.2) ht

/-- An object that leads to itself is put and read through a layer for one key, which the next put
takes for itself; the key falls out of a copying layer as it does without one. -/
theorem observers_transparent_loopHeap :
    let s : Stack [.recency] := (.ofCapacity 1 (by decide), .perpetual "c")
    let past : List CacheCall := [.put 2 Copying.loopHeap ⟨0, 0, 0, []⟩ .absence,
      .get 1 Copying.loopHeap .empty, .put 0 Copying.loopHeap .empty (.rows [.object ⟨0⟩])]
    (s.store = .perpetual "c" ∧ List.Forall₂ CacheCall.Twin past past ∧
        CacheCall.Untouched past) ∧
      List.Forall₂ CacheCall.Answer.Alike (CacheCall.answers (stackOps [.recency]) s past)
        (CacheCall.answers (stackOps [.recency, .copying])
          (s.insert (l := .copying) () [.recency]) past) := by
  intro s past
  have hvs : ∀ v ∈ [Value.object ⟨0⟩], v.Within fun o => o = ⟨0⟩ := by simpa using .object rfl
  have hrows : (Entry.rows [.object ⟨0⟩]).Plain Copying.loopHeap :=
    ⟨_, _, Copying.region_loopHeap, .rows hvs (by decide)⟩
  have habsence : Entry.absence.Plain Copying.loopHeap :=
    ⟨_, _, Copying.loopHeap.region_empty, .absence⟩
  have htwins : List.Forall₂ CacheCall.Twin past past :=
    .cons (.put 2 _ habsence habsence nofun rfl) <| .cons (.get 1 _ _ _) <|
      .cons (.put 0 _ hrows hrows nofun rfl) .nil
  have huntouched : CacheCall.Untouched past :=
    CacheCall.untouched_of_heap (h := Copying.loopHeap) (by simp [past, CacheCall.heap?])
  exact ⟨⟨rfl, htwins, huntouched⟩,
    ((observers_transparent [.recency] [] s).2 "c" rfl past past htwins huntouched huntouched).1⟩

end Stack

end ResultCache
