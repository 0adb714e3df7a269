import Mathlib.Data.List.Forall2
import ResultCache.Proofs.Cache.Calls
import ResultCache.Proofs.Table

/-!
# Two caches side by side

Two caches are called alike, each in a run of its own with objects of its own. `CacheOps.Mirrors` is
the contract of such a pair: calls with related entries return the same, entries that are found are
related, and the states stay alike. What it is for entries to be related, and what may happen to
objects between the calls, is left open (`Lockstep`).

The contract is proved once for two stores and once for each layer over any pair that keeps it, the
copying layer excepted: it makes other entries of what it is given, and what that does to related
entries depends on the relation. `CacheOps.Mirrors.run` is what a call does to a pair.
-/
namespace ResultCache

/-- Two runs side by side. At each moment objects are like `left` in the one run and like `right` in
the other; moments that may follow one another are `Later`. -/
structure Lockstep where
  Moment : Type
  left : Moment → Heap
  right : Moment → Heap
  Later : Moment → Moment → Prop
  refl : ∀ w, Later w w

/-- Reads end alike: both fail for one reason, or both find nothing, or what they find is related. -/
inductive EndAlike {α : Type} (R : α → α → Prop) :
    Result (Option α) → Result (Option α) → Prop where
  | error (f : Fault) : EndAlike R (.error f) (.error f)
  | ok {a b : Option α} (hab : Option.Rel R a b) : EndAlike R (.ok a) (.ok b)

theorem EndAlike.map_unit {α : Type} {R : α → α → Prop} {x y : Result (Option α)}
    (hxy : EndAlike R x y) : (x.map fun _ => ()) = y.map fun _ => () := by
  cases hxy <;> rfl

/-- Two reads that began at the moment `w` end alike at a later one. -/
def Lockstep.Reads (P : Lockstep) (E : P.Moment → Entry → Entry → Prop) (w : P.Moment)
    {σ τ : Type} (r : Result (Option Entry) × Heap × σ) (r' : Result (Option Entry) × Heap × τ) :
    Prop :=
  ∃ w', P.Later w w' ∧ P.left w' = r.2.1 ∧ P.right w' = r'.2.1 ∧ EndAlike (E w') r.1 r'.1

/-- The contract of two caches side by side, where `E` relates entries and `Alike` states. -/
structure CacheOps.Mirrors {σ τ : Type} (P : Lockstep) (E : P.Moment → Entry → Entry → Prop)
    (B : CacheOps σ) (C : CacheOps τ) (Alike : P.Moment → σ → τ → Prop) : Prop where
  id : ∀ {w s t}, Alike w s t → B.id s = C.id t
  later : ∀ {w w' s t}, P.Later w w' → Alike w s t → Alike w' s t
  size : ∀ {w s t} now, Alike w s t →
    (B.size now s).1 = (C.size now t).1 ∧ Alike w (B.size now s).2 (C.size now t).2
  put : ∀ {w s t e e'} now k, Alike w s t → E w e e' →
    (B.put now (P.left w) k e s).1 = (C.put now (P.right w) k e' t).1 ∧
      Alike w (B.put now (P.left w) k e s).2 (C.put now (P.right w) k e' t).2
  get : ∀ {w s t} now k, Alike w s t →
    P.Reads E w (B.get now (P.left w) k s) (C.get now (P.right w) k t) ∧
      Alike w (B.get now (P.left w) k s).2.2 (C.get now (P.right w) k t).2.2
  remove : ∀ {w s t} now k, Alike w s t →
    P.Reads E w (B.remove now (P.left w) k s) (C.remove now (P.right w) k t) ∧
      Alike w (B.remove now (P.left w) k s).2.2 (C.remove now (P.right w) k t).2.2
  clear : ∀ {w s t} now, Alike w s t → Alike w (B.clear now s) (C.clear now t)

/-- Two layers of one kind remember the same, and what is below them is alike. -/
def LayerAlike {ρ σ τ μ : Type} (Alike : μ → σ → τ → Prop) (w : μ) (s : ρ × σ) (t : ρ × τ) : Prop :=
  s.1 = t.1 ∧ Alike w s.2 t.2

namespace Table

universe u v

variable {κ : Type u} {α : Type v}

/-- The same keys in the same order, with related values. -/
def Matches (R : α → α → Prop) (l m : List (κ × α)) : Prop :=
  List.Forall₂ (fun p q => p.1 = q.1 ∧ R p.2 q.2) l m

variable {R : α → α → Prop} {l m : List (κ × α)}

theorem Matches.keys (hlm : Matches R l m) : l.map (·.1) = m.map (·.1) := by
  induction hlm with
  | nil => rfl
  | cons hpq _ ih => rw [List.map_cons, List.map_cons, hpq.1, ih]

variable [DecidableEq κ]

theorem Matches.place (hlm : Matches R l m) (k : κ) {a b : α} (hab : R a b) :
    Matches R (place k a l) (place k b m) := by
  induction hlm with
  | nil => exact .cons ⟨rfl, hab⟩ .nil
  | @cons p q _ _ hpq hlm ih =>
    obtain ⟨j, a'⟩ := p
    obtain ⟨_, b'⟩ := q
    obtain ⟨rfl, hpq⟩ := hpq
    rw [Table.place, Table.place]
    split
    · exact .cons ⟨rfl, hab⟩ hlm
    · exact .cons ⟨rfl, hpq⟩ ih

theorem Matches.omitting (hlm : Matches R l m) (k : κ) :
    Matches R (omitting k l) (omitting k m) := by
  induction hlm with
  | nil => exact .nil
  | @cons p q _ _ hpq _ ih =>
    obtain ⟨j, a⟩ := p
    obtain ⟨_, b⟩ := q
    obtain ⟨rfl, hpq⟩ := hpq
    by_cases hj : j = k
    · simpa [Table.omitting, hj] using ih
    · have hcons : Matches R ((j, a) :: Table.omitting k _) ((j, b) :: Table.omitting k _) :=
        .cons ⟨rfl, hpq⟩ ih
      simpa [Table.omitting, hj] using hcons

theorem Matches.find (hlm : Matches R l m) (k : κ) : Option.Rel R (find k l) (find k m) := by
  induction hlm with
  | nil => exact .none
  | @cons p q _ _ hpq _ ih =>
    obtain ⟨j, a⟩ := p
    obtain ⟨_, b⟩ := q
    obtain ⟨rfl, hpq⟩ := hpq
    rw [Table.find, Table.find]
    split
    · exact .some hpq
    · exact ih

end Table

/-- Two stores that refuse nothing, of one name and with related entries under the same keys. -/
structure Store.Alike (R : Entry → Entry → Prop) (s t : Store) : Prop where
  id_eq : s.id = t.id
  left : s.refused = []
  right : t.refused = []
  entries : Table.Matches R s.entries.entries t.entries.entries

section Layers

variable {P : Lockstep} {E : P.Moment → Entry → Entry → Prop}

theorem Lockstep.reads_none {w : P.Moment} {σ τ : Type} {s : σ} {t : τ} :
    P.Reads E w (.ok none, P.left w, s) (.ok none, P.right w, t) :=
  ⟨w, P.refl w, rfl, rfl, .ok .none⟩

theorem Store.mirrors (hE : ∀ {w w' e e'}, P.Later w w' → E w e e' → E w' e e') :
    CacheOps.Mirrors P E Store.ops Store.ops fun w => Store.Alike (E w) where
  id hs := hs.id_eq
  later hw hs := ⟨hs.id_eq, hs.left, hs.right, hs.entries.imp fun _ _ => And.imp_right (hE hw)⟩
  size _ hs := ⟨hs.entries.length_eq, hs⟩
  put {w s t e e'} now k hs he := by
    change (s.put k e).1 = (t.put k e').1 ∧ Store.Alike (E w) (s.put k e).2 (t.put k e').2
    rw [Store.put, Store.put, if_neg (by simp [hs.left]), if_neg (by simp [hs.right])]
    exact ⟨rfl, hs.id_eq, hs.left, hs.right, hs.entries.place k he⟩
  get {w s t} now k hs := by
    change P.Reads E w (s.get k, P.left w, s) (t.get k, P.right w, t) ∧ Store.Alike (E w) s t
    rw [Store.get, Store.get, if_neg (by simp [hs.left]), if_neg (by simp [hs.right])]
    exact ⟨⟨w, P.refl w, rfl, rfl, .ok (hs.entries.find k)⟩, hs⟩
  remove {w s t} now k hs := by
    change P.Reads E w ((s.remove k).1, P.left w, (s.remove k).2)
      ((t.remove k).1, P.right w, (t.remove k).2) ∧
      Store.Alike (E w) (s.remove k).2 (t.remove k).2
    rw [Store.remove, Store.remove, if_neg (by simp [hs.left]), if_neg (by simp [hs.right])]
    exact ⟨⟨w, P.refl w, rfl, rfl, .ok (hs.entries.find k)⟩,
      hs.id_eq, hs.left, hs.right, hs.entries.omitting k⟩
  clear _ hs := ⟨hs.id_eq, hs.left, hs.right, .nil⟩

variable {σ τ : Type} {B : CacheOps σ} {C : CacheOps τ} {Alike : P.Moment → σ → τ → Prop}

/-- The same key falls out of both indexes. -/
theorem Recency.mirrors (hB : B.Mirrors P E C Alike) :
    (Recency.ops B).Mirrors P E (Recency.ops C) (LayerAlike Alike) where
  id hs := hB.id hs.2
  later hw hs := ⟨hs.1, hB.later hw hs.2⟩
  size now hs := ⟨(hB.size now hs.2).1, hs.1, (hB.size now hs.2).2⟩
  put := by
    rintro w ⟨r, s⟩ ⟨_, t⟩ e e' now k ⟨rfl, hs⟩ he
    obtain ⟨hsame, hput⟩ := hB.put now k hs he
    change (Recency.put B now _ k e (r, s)).1 = (Recency.put C now _ k e' (r, t)).1 ∧
      LayerAlike Alike w (Recency.put B now _ k e (r, s)).2 (Recency.put C now _ k e' (r, t)).2
    rw [Recency.put, Recency.put]
    generalize B.put now (P.left w) k e s = p at hsame hput ⊢
    generalize C.put now (P.right w) k e' t = q at hsame hput ⊢
    obtain ⟨x, s⟩ := p
    obtain ⟨_, t⟩ := q
    obtain rfl : x = _ := hsame
    rcases x with f | ⟨⟩
    · exact ⟨rfl, rfl, hput⟩
    · dsimp only
      rcases r.push k with ⟨_ | eldest, r⟩
      · exact ⟨rfl, rfl, hput⟩
      · obtain ⟨⟨w', -, -, -, hends⟩, hremove⟩ := hB.remove (now + 1) eldest hput
        exact ⟨hends.map_unit, rfl, hremove⟩
  get := by
    rintro w ⟨r, s⟩ ⟨_, t⟩ now k ⟨rfl, hs⟩
    obtain ⟨hreads, hget⟩ := hB.get now k hs
    exact ⟨hreads, rfl, hget⟩
  remove now k hs := ⟨(hB.remove now k hs.2).1, hs.1, (hB.remove now k hs.2).2⟩
  clear := by
    rintro w ⟨r, s⟩ ⟨_, t⟩ now ⟨rfl, hs⟩
    exact ⟨rfl, hB.clear now hs⟩

/-- The same key leaves both queues. -/
theorem Arrival.mirrors (hB : B.Mirrors P E C Alike) :
    (Arrival.ops B).Mirrors P E (Arrival.ops C) (LayerAlike Alike) where
  id hs := hB.id hs.2
  later hw hs := ⟨hs.1, hB.later hw hs.2⟩
  size now hs := ⟨(hB.size now hs.2).1, hs.1, (hB.size now hs.2).2⟩
  put := by
    rintro w ⟨a, s⟩ ⟨_, t⟩ e e' now k ⟨rfl, hs⟩ he
    change (Arrival.put B now _ k e (a, s)).1 = (Arrival.put C now _ k e' (a, t)).1 ∧
      LayerAlike Alike w (Arrival.put B now _ k e (a, s)).2 (Arrival.put C now _ k e' (a, t)).2
    rw [Arrival.put, Arrival.put]
    rcases a.push k with ⟨_ | oldest, a⟩
    · exact ⟨(hB.put now k hs he).1, rfl, (hB.put now k hs he).2⟩
    · obtain ⟨⟨w', -, -, -, hends⟩, hremove⟩ := hB.remove now oldest hs
      dsimp only
      generalize B.remove now (P.left w) oldest s = p at hends hremove ⊢
      generalize C.remove now (P.right w) oldest t = q at hends hremove ⊢
      obtain ⟨x, _, s⟩ := p
      obtain ⟨y, _, t⟩ := q
      cases hends with
      | error f => exact ⟨rfl, rfl, hremove⟩
      | ok _ => exact ⟨(hB.put (now + 1) k hremove he).1, rfl, (hB.put (now + 1) k hremove he).2⟩
  get now k hs := ⟨(hB.get now k hs.2).1, hs.1, (hB.get now k hs.2).2⟩
  remove now k hs := ⟨(hB.remove now k hs.2).1, hs.1, (hB.remove now k hs.2).2⟩
  clear := by
    rintro w ⟨a, s⟩ ⟨_, t⟩ now ⟨rfl, hs⟩
    exact ⟨rfl, hB.clear now hs⟩

/-- The time is up for both layers at once. -/
theorem Expiry.beside_refreshed (hB : B.Mirrors P E C Alike) {w : P.Moment} {x : Expiry} {s : σ}
    {t : τ} (now : Instant) (hs : Alike w s t) :
    LayerAlike Alike w (if x.stale now then Expiry.clear B now (x, s) else (x, s))
      (if x.stale now then Expiry.clear C now (x, t) else (x, t)) := by
  split
  · exact ⟨rfl, hB.clear now hs⟩
  · exact ⟨rfl, hs⟩

theorem Expiry.mirrors (hB : B.Mirrors P E C Alike) :
    (Expiry.ops B).Mirrors P E (Expiry.ops C) (LayerAlike Alike) where
  id hs := hB.id hs.2
  later hw hs := ⟨hs.1, hB.later hw hs.2⟩
  size := by
    rintro w ⟨x, s⟩ ⟨_, t⟩ now ⟨rfl, hs⟩
    obtain ⟨hlayer, hbelow⟩ := beside_refreshed hB (x := x) now hs
    exact ⟨(hB.size now hbelow).1, hlayer, (hB.size now hbelow).2⟩
  put := by
    rintro w ⟨x, s⟩ ⟨_, t⟩ e e' now k ⟨rfl, hs⟩ he
    obtain ⟨hlayer, hbelow⟩ := beside_refreshed hB (x := x) now hs
    exact ⟨(hB.put now k hbelow he).1, hlayer, (hB.put now k hbelow he).2⟩
  get := by
    rintro w ⟨x, s⟩ ⟨_, t⟩ now k ⟨rfl, hs⟩
    change P.Reads E w (Expiry.get B now _ k (x, s)) (Expiry.get C now _ k (x, t)) ∧
      LayerAlike Alike w (Expiry.get B now _ k (x, s)).2.2 (Expiry.get C now _ k (x, t)).2.2
    rw [Expiry.get, Expiry.get]
    split
    · exact ⟨Lockstep.reads_none, rfl, hB.clear now hs⟩
    · exact ⟨(hB.get now k hs).1, rfl, (hB.get now k hs).2⟩
  remove := by
    rintro w ⟨x, s⟩ ⟨_, t⟩ now k ⟨rfl, hs⟩
    change P.Reads E w (Expiry.remove B now _ k (x, s)) (Expiry.remove C now _ k (x, t)) ∧
      LayerAlike Alike w (Expiry.remove B now _ k (x, s)).2.2 (Expiry.remove C now _ k (x, t)).2.2
    rw [Expiry.remove, Expiry.remove]
    split
    · exact ⟨Lockstep.reads_none, rfl, hB.clear now hs⟩
    · exact ⟨(hB.remove now k hs).1, rfl, (hB.remove now k hs).2⟩
  clear := by
    rintro w ⟨x, s⟩ ⟨_, t⟩ now ⟨rfl, hs⟩
    exact ⟨rfl, hB.clear now hs⟩

/-- Both layers lock a key or neither does, and a wait fails for one reason in both. -/
theorem Gate.mirrors (hB : B.Mirrors P E C Alike) :
    (Gate.ops B).Mirrors P E (Gate.ops C) (LayerAlike Alike) where
  id hs := hB.id hs.2
  later hw hs := ⟨hs.1, hB.later hw hs.2⟩
  size now hs := ⟨(hB.size now hs.2).1, hs.1, (hB.size now hs.2).2⟩
  put := by
    rintro w ⟨g, s⟩ ⟨_, t⟩ e e' now k ⟨rfl, hs⟩ he
    exact ⟨(hB.put now k hs he).1, rfl, (hB.put now k hs he).2⟩
  get := by
    rintro w ⟨g, s⟩ ⟨_, t⟩ now k ⟨rfl, hs⟩
    change P.Reads E w (Gate.get B now _ k (g, s)) (Gate.get C now _ k (g, t)) ∧
      LayerAlike Alike w (Gate.get B now _ k (g, s)).2.2 (Gate.get C now _ k (g, t)).2.2
    rw [Gate.get, Gate.get]
    split
    · rw [hB.id hs]
      exact ⟨⟨w, P.refl w, rfl, rfl, .error _⟩, rfl, hs⟩
    · obtain ⟨⟨w', hw, hl, hr, hends⟩, hget⟩ := hB.get now k hs
      dsimp only
      generalize B.get now (P.left w) k s = p at hl hends hget ⊢
      generalize C.get now (P.right w) k t = q at hr hends hget ⊢
      obtain ⟨x, _, s⟩ := p
      obtain ⟨y, _, t⟩ := q
      cases hends with
      | error f => exact ⟨⟨w', hw, hl, hr, .error f⟩, rfl, hget⟩
      | ok hab =>
        cases hab with
        | none => exact ⟨⟨w', hw, hl, hr, .ok .none⟩, rfl, hget⟩
        | some hab => exact ⟨⟨w', hw, hl, hr, .ok (.some hab)⟩, rfl, hget⟩
  remove := by
    rintro w ⟨g, s⟩ ⟨_, t⟩ now k ⟨rfl, hs⟩
    exact ⟨(hB.remove now k hs).1, rfl, (hB.remove now k hs).2⟩
  clear now hs := ⟨hs.1, hB.clear now hs.2⟩

theorem Exclusive.mirrors (hB : B.Mirrors P E C Alike) :
    (Exclusive.ops B).Mirrors P E (Exclusive.ops C) (LayerAlike Alike) where
  id hs := hB.id hs.2
  later hw hs := ⟨hs.1, hB.later hw hs.2⟩
  size now hs := ⟨(hB.size now hs.2).1, hs.1, (hB.size now hs.2).2⟩
  put now k hs he := ⟨(hB.put now k hs.2 he).1, hs.1, (hB.put now k hs.2 he).2⟩
  get now k hs := ⟨(hB.get now k hs.2).1, hs.1, (hB.get now k hs.2).2⟩
  remove now k hs := ⟨(hB.remove now k hs.2).1, hs.1, (hB.remove now k hs.2).2⟩
  clear now hs := ⟨hs.1, hB.clear now hs.2⟩

theorem Counting.mirrors (hB : B.Mirrors P E C Alike) :
    (Counting.ops B).Mirrors P E (Counting.ops C) (LayerAlike Alike) where
  id hs := hB.id hs.2
  later hw hs := ⟨hs.1, hB.later hw hs.2⟩
  size now hs := ⟨(hB.size now hs.2).1, hs.1, (hB.size now hs.2).2⟩
  put now k hs he := ⟨(hB.put now k hs.2 he).1, hs.1, (hB.put now k hs.2 he).2⟩
  get := by
    rintro w ⟨n, s⟩ ⟨_, t⟩ now k ⟨rfl, hs⟩
    obtain ⟨⟨w', hw, hl, hr, hends⟩, hget⟩ := hB.get now k hs
    change P.Reads E w (Counting.get B now _ k (n, s)) (Counting.get C now _ k (n, t)) ∧
      LayerAlike Alike w (Counting.get B now _ k (n, s)).2.2 (Counting.get C now _ k (n, t)).2.2
    rw [Counting.get, Counting.get]
    generalize B.get now (P.left w) k s = p at hl hends hget ⊢
    generalize C.get now (P.right w) k t = q at hr hends hget ⊢
    obtain ⟨x, _, s⟩ := p
    obtain ⟨y, _, t⟩ := q
    cases hends with
    | error f => exact ⟨⟨w', hw, hl, hr, .error f⟩, rfl, hget⟩
    | ok hab =>
      cases hab with
      | none => exact ⟨⟨w', hw, hl, hr, .ok .none⟩, rfl, hget⟩
      | some hab => exact ⟨⟨w', hw, hl, hr, .ok (.some hab)⟩, rfl, hget⟩
  remove now k hs := ⟨(hB.remove now k hs.2).1, hs.1, (hB.remove now k hs.2).2⟩
  clear now hs := ⟨hs.1, hB.clear now hs.2⟩

end Layers

namespace CacheCall

/-- The two calls are one, each made with what objects are like in its run. -/
inductive Paired (P : Lockstep) (E : P.Moment → Entry → Entry → Prop) (w : P.Moment) :
    CacheCall → CacheCall → Prop where
  | put (now : Instant) (k : Key) {e e' : Entry} (he : E w e e') :
      Paired P E w (.put now (P.left w) k e) (.put now (P.right w) k e')
  | get (now : Instant) (k : Key) : Paired P E w (.get now (P.left w) k) (.get now (P.right w) k)
  | remove (now : Instant) (k : Key) :
      Paired P E w (.remove now (P.left w) k) (.remove now (P.right w) k)
  | clear (now : Instant) : Paired P E w (.clear now) (.clear now)
  | size (now : Instant) : Paired P E w (.size now) (.size now)

/-- The answers to two calls that were made at the moment `w` are alike. -/
inductive Answer.Paired (P : Lockstep) (E : P.Moment → Entry → Entry → Prop) (w : P.Moment) :
    Answer → Answer → Prop where
  | stored (r : Result Unit) : Paired P E w (.stored r) (.stored r)
  | found {w' : P.Moment} (hw : P.Later w w') {r r' : Result (Option Entry)}
      (hends : EndAlike (E w') r r') : Paired P E w (.found r (P.left w')) (.found r' (P.right w'))
  | cleared : Paired P E w .cleared .cleared
  | counted (n : Nat) : Paired P E w (.counted n) (.counted n)

theorem Answer.paired_of_reads {P : Lockstep} {E : P.Moment → Entry → Entry → Prop} {w : P.Moment}
    {σ τ : Type} {r : Result (Option Entry) × Heap × σ} {r' : Result (Option Entry) × Heap × τ}
    (hr : P.Reads E w r r') : Answer.Paired P E w (.found r.1 r.2.1) (.found r'.1 r'.2.1) := by
  obtain ⟨w', hw, hleft, hright, hends⟩ := hr
  rw [← hleft, ← hright]
  exact .found hw hends

end CacheCall

/-- A call of the two caches answers alike in both and leaves them alike. -/
theorem CacheOps.Mirrors.run {P : Lockstep} {E : P.Moment → Entry → Entry → Prop} {σ τ : Type}
    {B : CacheOps σ} {C : CacheOps τ} {Alike : P.Moment → σ → τ → Prop}
    (hB : B.Mirrors P E C Alike) {w : P.Moment} {s : σ} {t : τ} (hs : Alike w s t)
    {c c' : CacheCall} (hc : c.Paired P E w c') :
    CacheCall.Answer.Paired P E w (c.run B s).1 (c'.run C t).1 ∧
      Alike w (c.run B s).2 (c'.run C t).2 := by
  cases hc with
  | put now k he =>
    obtain ⟨hsame, hput⟩ := hB.put now k hs he
    refine ⟨?_, hput⟩
    rw [CacheCall.run, CacheCall.run, hsame]
    exact .stored _
  | get now k =>
    obtain ⟨hreads, hget⟩ := hB.get now k hs
    exact ⟨CacheCall.Answer.paired_of_reads hreads, hget⟩
  | remove now k =>
    obtain ⟨hreads, hremove⟩ := hB.remove now k hs
    exact ⟨CacheCall.Answer.paired_of_reads hreads, hremove⟩
  | clear now => exact ⟨.cleared, hB.clear now hs⟩
  | size now =>
    obtain ⟨hsame, hsize⟩ := hB.size now hs
    refine ⟨?_, hsize⟩
    rw [CacheCall.run, CacheCall.run, hsame]
    exact .counted _

end ResultCache
