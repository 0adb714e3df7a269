import ResultCache.Cache.Stack
import ResultCache.Proofs.Entry

/-!
# Caches may forget but do not make up

`Contents` bounds what a cache may hold: which contents it may hold for a key. `CacheOps.Faithful` is
the contract that every cache and every layer keeps. A put that returns makes the put content the
only one for its key, and every put of a finished result returns; a removal takes the contents of
the key away, a clear takes all, and nothing adds any; what a read finds is within the bound, and
reading changes no object.

The contract is proved once for the store and once for each layer over any cache that keeps it, and
so holds for every stack (`faithful_stackOps`). A copying layer turns a cache of coded entries into
one of plain entries.
-/
namespace ResultCache

/-- The contents that a cache may hold for each key. -/
abbrev Contents := Key → Content → Prop

namespace Contents

def none : Contents := fun _ _ => False

def set (m : Contents) (k : Key) (c : Content) : Contents :=
  fun j d => if j = k then d = c else m j d

def drop (m : Contents) (k : Key) : Contents := fun j d => j ≠ k ∧ m j d

/-- After a put, which may have failed. -/
def afterPut (m : Contents) (k : Key) (c : Content) : Result Unit → Contents
  | .ok () => m.set k c
  | .error _ => m

def Le (m n : Contents) : Prop := ∀ k c, m k c → n k c

theorem drop_le (m : Contents) (k : Key) : (m.drop k).Le m := fun _ _ hm => hm.2

theorem none_le (m : Contents) : none.Le m := fun _ _ hm => hm.elim

theorem Le.set {m n : Contents} (hmn : m.Le n) (k : Key) (c : Content) :
    (m.set k c).Le (n.set k c) := by
  intro j d hm
  unfold Contents.set at hm ⊢
  split at hm
  · rwa [if_pos ‹_›]
  · rw [if_neg ‹_›]
    exact hmn j d hm

theorem Le.afterPut {m n : Contents} (hmn : m.Le n) (k : Key) (c : Content) (r : Result Unit) :
    (m.afterPut k c r).Le (n.afterPut k c r) := by
  rcases r with _ | ⟨⟩
  · exact hmn
  · exact hmn.set k c

end Contents

/-- What a read answers is within the bound, and all that is new to the heap is the objects it made,
which lead only to one another. -/
structure Answers (coded : Bool) (m : Contents) (K : ObjId → Prop) (h : Heap) (k : Key)
    (r : Result (Option Entry)) (h' : Heap) : Prop where
  grows : h.Grows h'
  region : h'.Region (h.Fresh h')
  stands : ∀ e, r = .ok (some e) →
    ∃ c, m k c ∧ e.Stands coded (fun o => K o ∨ h.Fresh h' o) h' c

theorem Heap.region_fresh_self (h : Heap) : h.Region (h.Fresh h) :=
  fun _ ho => absurd ho.1 (Nat.not_le.2 ho.2)

/-- An answer that finds nothing, out of an unchanged heap. -/
theorem Answers.none {coded : Bool} {m : Contents} {K : ObjId → Prop} {h : Heap} {k : Key}
    {r : Result (Option Entry)} (hr : ∀ e, r ≠ .ok (some e)) : Answers coded m K h k r h :=
  ⟨.refl h, h.region_fresh_self, fun e he => absurd he (hr e)⟩

/-- The contract of a cache whose callers deal in `coded` entries. `Holds m K h s` says that in the
state `s` the cache holds only contents of `m`, with the objects of its rows in `K`. -/
structure CacheOps.Faithful {σ : Type} (B : CacheOps σ) (coded : Bool)
    (Holds : Contents → (ObjId → Prop) → Heap → σ → Prop) : Prop where
  mono : ∀ {m n K h s}, m.Le n → Holds m K h s → Holds n K h s
  size : ∀ {m K h s} now, Holds m K h s → Holds m K h (B.size now s).2
  put : ∀ {m K h s e c} now k, h.Region K → Holds m K h s → e.Stands coded K h c →
    Holds (m.afterPut k c (B.put now h k e s).1) K h (B.put now h k e s).2
  put_ok : ∀ {m K h s e c} now k, h.Region K → Holds m K h s → e.Stands coded K h c →
    c ≠ .loading → (B.put now h k e s).1 = .ok ()
  get : ∀ {m K h s} now k, h.Region K → Holds m K h s →
    Answers coded m K h k (B.get now h k s).1 (B.get now h k s).2.1 ∧
      Holds m K h (B.get now h k s).2.2
  remove : ∀ {m K h s} now k, h.Region K → Holds m K h s →
    (∃ r, (B.remove now h k s).1 = .ok r) ∧
      Answers coded m K h k (B.remove now h k s).1 (B.remove now h k s).2.1 ∧
      Holds (m.drop k) K h (B.remove now h k s).2.2
  clear : ∀ {m K h s} now, Holds m K h s → Holds .none K h (B.clear now s)

/-- The contract kept below a layer. -/
def Under {ρ σ : Type} (Holds : Contents → (ObjId → Prop) → Heap → σ → Prop) (m : Contents)
    (K : ObjId → Prop) (h : Heap) (s : ρ × σ) : Prop := Holds m K h s.2

/-- The store refuses nothing and holds only these contents, under its name. -/
structure Store.Holds (coded : Bool) (id : String) (m : Contents) (K : ObjId → Prop) (h : Heap)
    (s : Store) : Prop where
  id_eq : s.id = id
  refused : s.refused = []
  holds : ∀ k e, s.entries.get? k = some e → ∃ c, m k c ∧ e.Stands coded K h c

namespace Store

variable {coded : Bool} {id : String} {m : Contents} {K : ObjId → Prop} {h : Heap} {s : Store}

theorem Holds.mono {n : Contents} (hmn : m.Le n) (hs : Holds coded id m K h s) :
    Holds coded id n K h s := by
  refine ⟨hs.id_eq, hs.refused, fun k e he => ?_⟩
  obtain ⟨c, hc, hec⟩ := hs.holds k e he
  exact ⟨c, hmn k c hc, hec⟩

/-- A store holds what it holds while the objects of its rows do not change. -/
theorem Holds.of_agreeOn {L : ObjId → Prop} {h' : Heap} (hK : h.Region K)
    (hh : Heap.AgreeOn K h h') (hKL : ∀ o, K o → L o) (hs : Holds coded id m K h s) :
    Holds coded id m L h' s := by
  refine ⟨hs.id_eq, hs.refused, fun k e he => ?_⟩
  obtain ⟨c, hc, hec⟩ := hs.holds k e he
  exact ⟨c, hc, (hec.of_agreeOn hK hh).mono hKL⟩

theorem holds_perpetual (coded : Bool) (m : Contents) (K : ObjId → Prop) (h : Heap) (id : String) :
    Holds coded id m K h (perpetual id) :=
  ⟨rfl, rfl, fun _ _ he => by cases he⟩

/-- What the store holds for a key is within the bound. -/
theorem Holds.answers (hs : Holds coded id m K h s) (k : Key) :
    Answers coded m K h k (.ok (s.entries.get? k)) h := by
  refine ⟨.refl h, h.region_fresh_self, fun e he => ?_⟩
  obtain ⟨c, hc, hec⟩ := hs.holds k e (Except.ok.inj he)
  exact ⟨c, hc, hec.mono fun _ => .inl⟩

theorem faithful (coded : Bool) (id : String) :
    CacheOps.Faithful ops coded (Holds coded id) where
  mono := Holds.mono
  size _ hs := hs
  put := by
    intro m K h s e c now k _ hs he
    have hput : ops.put now h k e s = (.ok (), { s with entries := s.entries.insert k e }) := by
      change s.put k e = _
      rw [put, if_neg (by rw [hs.refused]; simp)]
    rw [hput]
    refine ⟨hs.id_eq, hs.refused, fun j f hf => ?_⟩
    change ∃ d, m.set k c j d ∧ f.Stands coded K h d
    unfold Contents.set
    by_cases hj : j = k
    · subst hj
      obtain rfl : e = f := by simpa using hf
      exact ⟨c, by rw [if_pos rfl], he⟩
    · have hf' : s.entries.get? j = some f := (Table.get?_insert_of_ne s.entries e hj).symm.trans hf
      obtain ⟨d, hd, hfd⟩ := hs.holds j f hf'
      exact ⟨d, by rwa [if_neg hj], hfd⟩
  put_ok := by
    intro m K h s e c now k _ hs _ _
    change (s.put k e).1 = _
    rw [put, if_neg (by rw [hs.refused]; simp)]
  get := by
    intro m K h s now k _ hs
    have hget : ops.get now h k s = (.ok (s.entries.get? k), h, s) := by
      change (s.get k, h, s) = _
      rw [get, if_neg (by rw [hs.refused]; simp)]
    rw [hget]
    exact ⟨hs.answers k, hs⟩
  remove := by
    intro m K h s now k _ hs
    have hremove : ops.remove now h k s =
        (.ok (s.entries.get? k), h, { s with entries := s.entries.erase k }) := by
      change ((s.remove k).1, h, (s.remove k).2) = _
      rw [remove, if_neg (by rw [hs.refused]; simp)]
    rw [hremove]
    refine ⟨⟨_, rfl⟩, hs.answers k, hs.id_eq, hs.refused, fun j e he => ?_⟩
    by_cases hj : j = k
    · subst hj
      simp at he
    · have hj' : s.entries.get? j = some e := (Table.get?_erase_of_ne s.entries hj).symm.trans he
      obtain ⟨c, hc, hec⟩ := hs.holds j e hj'
      exact ⟨c, ⟨hj, hc⟩, hec⟩
  clear := by
    intro m K h s now hs
    exact ⟨hs.id_eq, hs.refused, fun k e he => by cases he⟩

end Store

section Layers

variable {σ : Type} {B : CacheOps σ} {coded : Bool}
  {Holds : Contents → (ObjId → Prop) → Heap → σ → Prop}

/-- Making room removes a key below, which cannot fail, and the entry that was put stays within the
bound. -/
theorem Recency.faithful (hB : B.Faithful coded Holds) :
    (Recency.ops B).Faithful coded (Under Holds) where
  mono := hB.mono
  size now hs := hB.size now hs
  put := by
    intro m K h s e c now k hK hs he
    have hput := hB.put now k hK hs he
    change Under Holds (m.afterPut k c (Recency.put B now h k e s).1) K h
      (Recency.put B now h k e s).2
    rw [Recency.put]
    generalize B.put now h k e s.2 = r at hput ⊢
    rcases r with ⟨_ | ⟨⟩, under⟩
    · exact hput
    · rcases s.1.push k with ⟨_ | eldest, r⟩
      · exact hput
      · obtain ⟨⟨res, hres⟩, -, hremove⟩ := hB.remove (now + 1) eldest hK hput
        simp only [hres]
        exact hB.mono (Contents.drop_le _ _) hremove
  put_ok := by
    intro m K h s e c now k hK hs he hc
    have hput := hB.put now k hK hs he
    have hok := hB.put_ok now k hK hs he hc
    change (Recency.put B now h k e s).1 = _
    rw [Recency.put]
    generalize B.put now h k e s.2 = r at hput hok ⊢
    obtain ⟨r, under⟩ := r
    obtain rfl : r = .ok () := hok
    rcases s.1.push k with ⟨_ | eldest, r⟩
    · rfl
    · obtain ⟨⟨res, hres⟩, -, -⟩ := hB.remove (now + 1) eldest hK hput
      simp only [hres]
      rfl
  get now k hK hs := hB.get now k hK hs
  remove now k hK hs := hB.remove now k hK hs
  clear now hs := hB.clear now hs

theorem Arrival.faithful (hB : B.Faithful coded Holds) :
    (Arrival.ops B).Faithful coded (Under Holds) where
  mono := hB.mono
  size now hs := hB.size now hs
  put := by
    intro m K h s e c now k hK hs he
    change Under Holds (m.afterPut k c (Arrival.put B now h k e s).1) K h
      (Arrival.put B now h k e s).2
    rw [Arrival.put]
    rcases s.1.push k with ⟨_ | oldest, a⟩
    · exact hB.put now k hK hs he
    · obtain ⟨⟨res, hres⟩, -, hremove⟩ := hB.remove now oldest hK hs
      dsimp only
      generalize B.remove now h oldest s.2 = r at hres hremove ⊢
      obtain ⟨r, h', under⟩ := r
      obtain rfl : r = .ok res := hres
      have hput := hB.put (now + 1) k hK hremove he
      exact hB.mono (Contents.Le.afterPut (Contents.drop_le m oldest) k c _) hput
  put_ok := by
    intro m K h s e c now k hK hs he hc
    change (Arrival.put B now h k e s).1 = _
    rw [Arrival.put]
    rcases s.1.push k with ⟨_ | oldest, a⟩
    · exact hB.put_ok now k hK hs he hc
    · obtain ⟨⟨res, hres⟩, -, hremove⟩ := hB.remove now oldest hK hs
      dsimp only
      generalize B.remove now h oldest s.2 = r at hres hremove ⊢
      obtain ⟨r, h', under⟩ := r
      obtain rfl : r = .ok res := hres
      exact hB.put_ok (now + 1) k hK hremove he hc
  get now k hK hs := hB.get now k hK hs
  remove now k hK hs := hB.remove now k hK hs
  clear now hs := hB.clear now hs

/-- A cache whose time is up holds nothing, which is within any bound. -/
theorem Expiry.holds_refreshed (hB : B.Faithful coded Holds) {m : Contents} {K : ObjId → Prop}
    {h : Heap} {s : Expiry × σ} (now : Instant) (hs : Under Holds m K h s) :
    Under Holds m K h (if s.1.stale now then Expiry.clear B now s else s) := by
  split
  · exact hB.mono (Contents.none_le m) (hB.clear now hs)
  · exact hs

theorem Expiry.faithful (hB : B.Faithful coded Holds) :
    (Expiry.ops B).Faithful coded (Under Holds) where
  mono := hB.mono
  size now hs := hB.size now (Expiry.holds_refreshed hB now hs)
  put now k hK hs he := hB.put now k hK (Expiry.holds_refreshed hB now hs) he
  put_ok now k hK hs he hc := hB.put_ok now k hK (Expiry.holds_refreshed hB now hs) he hc
  get := by
    intro m K h s now k hK hs
    have hcleared := hB.mono (Contents.none_le m) (hB.clear now hs)
    change Answers coded m K h k (Expiry.get B now h k s).1 (Expiry.get B now h k s).2.1 ∧
      Under Holds m K h (Expiry.get B now h k s).2.2
    rw [Expiry.get]
    split
    · exact ⟨.none (by simp), hcleared⟩
    · exact hB.get now k hK hs
  remove := by
    intro m K h s now k hK hs
    have hcleared := hB.mono (Contents.none_le (m.drop k)) (hB.clear now hs)
    change (∃ r, (Expiry.remove B now h k s).1 = .ok r) ∧
      Answers coded m K h k (Expiry.remove B now h k s).1 (Expiry.remove B now h k s).2.1 ∧
      Under Holds (m.drop k) K h (Expiry.remove B now h k s).2.2
    rw [Expiry.remove]
    split
    · exact ⟨⟨none, rfl⟩, .none (by simp), hcleared⟩
    · exact hB.remove now k hK hs
  clear now hs := hB.clear now hs

theorem Gate.faithful (hB : B.Faithful coded Holds) :
    (Gate.ops B).Faithful coded (Under Holds) where
  mono := hB.mono
  size now hs := hB.size now hs
  put now k hK hs he := hB.put now k hK hs he
  put_ok now k hK hs he hc := hB.put_ok now k hK hs he hc
  get := by
    intro m K h s now k hK hs
    have hget := hB.get now k hK hs
    change Answers coded m K h k (Gate.get B now h k s).1 (Gate.get B now h k s).2.1 ∧
      Under Holds m K h (Gate.get B now h k s).2.2
    rw [Gate.get]
    split
    · exact ⟨.none (by simp), hs⟩
    · generalize B.get now h k s.2 = r at hget ⊢
      rcases r with ⟨_ | _ | _, h', under⟩ <;> exact hget
  remove now k hK hs := hB.remove now k hK hs
  clear now hs := hB.clear now hs

theorem Exclusive.faithful (hB : B.Faithful coded Holds) :
    (Exclusive.ops B).Faithful coded (Under Holds) where
  mono := hB.mono
  size now hs := hB.size now hs
  put now k hK hs he := hB.put now k hK hs he
  put_ok now k hK hs he hc := hB.put_ok now k hK hs he hc
  get now k hK hs := hB.get now k hK hs
  remove now k hK hs := hB.remove now k hK hs
  clear now hs := hB.clear now hs

theorem Counting.faithful (hB : B.Faithful coded Holds) :
    (Counting.ops B).Faithful coded (Under Holds) where
  mono := hB.mono
  size now hs := hB.size now hs
  put now k hK hs he := hB.put now k hK hs he
  put_ok now k hK hs he hc := hB.put_ok now k hK hs he hc
  get := by
    intro m K h s now k hK hs
    have hget := hB.get now k hK hs
    change Answers coded m K h k (Counting.get B now h k s).1 (Counting.get B now h k s).2.1 ∧
      Under Holds m K h (Counting.get B now h k s).2.2
    rw [Counting.get]
    generalize B.get now h k s.2 = r at hget ⊢
    rcases r with ⟨_ | _, h', under⟩ <;> exact hget
  remove now k hK hs := hB.remove now k hK hs
  clear now hs := hB.clear now hs

namespace Copying

/-- The stored form of an entry stands for what the entry stands for. -/
theorem stands_stored {cache : String} {K : ObjId → Prop} {h : Heap} {e e' : Entry} {c : Content}
    (hK : h.Region K) (he : e.Stands coded K h c) (hstored : stored cache h e = .ok e') :
    e'.Stands true K h c := by
  cases he with
  | absence => cases hstored; exact .absence
  | loading => cases hstored
  | rows hvs hlen =>
    cases hstored
    exact .encoded rfl (h.decodeRows_encodeRows hK hvs hlen) (h.freezeRows_regular hK hvs)
      (by simpa using hlen)
  | encoded _ hbs hfs hlen => cases hstored; exact .encoded rfl hbs hfs hlen

/-- Bytes in bound are restored to rows in bound, made of new objects. -/
theorem answers_restored {m : Contents} {K : ObjId → Prop} {h h' : Heap} {k : Key}
    {e : Option Entry} (he : Answers true m K h k (.ok e) h') (coded : Bool) (cache : String) :
    (∃ r, (restored cache h' e).1 = .ok r) ∧
      Answers coded m K h k (restored cache h' e).1 (restored cache h' e).2 := by
  rcases e with _ | e
  · exact ⟨⟨none, rfl⟩, he.grows, he.region, by simp [restored]⟩
  · obtain ⟨c, hc, hec⟩ := he.stands e rfl
    have hsame : ∀ r : Entry, r.Stands coded (fun o => K o ∨ h.Fresh h' o) h' c →
        Answers coded m K h k (.ok (some r)) h' := by
      intro r hr
      refine ⟨he.grows, he.region, fun r' hr' => ?_⟩
      obtain rfl : r = r' := by simpa using hr'
      exact ⟨c, hc, hr⟩
    cases hec with
    | absence => exact ⟨⟨_, rfl⟩, hsame _ .absence⟩
    | loading => exact ⟨⟨_, rfl⟩, hsame _ .loading⟩
    | rows hvs hlen => exact ⟨⟨_, rfl⟩, hsame _ (.rows hvs hlen)⟩
    | @encoded bs fs _ hbs hfs hlen =>
      have hmade := Frozen.made_thawAll hfs h'
      have hfresh := Heap.fresh_trans he.grows hmade.grows
      have hrestored : restored cache h' (some (.encoded bs)) =
          (.ok (some (.rows (Frozen.thawAll fs h').1)), (Frozen.thawAll fs h').2) := by
        rw [restored, hbs]
      rw [hrestored]
      refine ⟨⟨_, rfl⟩, he.grows.trans hmade.grows, fun o ho => ?_, fun r hr => ?_⟩
      · obtain ⟨r, hr, hw⟩ := (he.region.of_grows hmade.grows).or hmade.region o ((hfresh o).1 ho)
        exact ⟨r, hr, hw.mono fun o => (hfresh o).2⟩
      · obtain rfl : Entry.rows (Frozen.thawAll fs h').1 = r := by simpa using hr
        exact ⟨.rows fs, hc,
          (Entry.stands_of_made hmade hlen).mono fun o ho => .inr ((hfresh o).2 (.inr ho))⟩

/-- A copying layer lets callers deal in plain entries over a cache of coded ones. -/
theorem faithful (hB : B.Faithful true Holds) (coded : Bool) :
    (ops B).Faithful coded (Under Holds) where
  mono := hB.mono
  size now hs := hB.size now hs
  put := by
    intro m K h s e c now k hK hs he
    change Under Holds (m.afterPut k c (put B now h k e s).1) K h (put B now h k e s).2
    rw [put]
    split
    · exact hB.put now k hK hs (stands_stored hK he ‹_›)
    · exact hs
  put_ok := by
    intro m K h s e c now k hK hs he hc
    change (put B now h k e s).1 = _
    rw [put]
    obtain ⟨e', he'⟩ : ∃ e', stored (B.id s.2) h e = .ok e' := by
      cases he with
      | loading => exact absurd rfl hc
      | absence => exact ⟨_, rfl⟩
      | rows => exact ⟨_, rfl⟩
      | encoded => exact ⟨_, rfl⟩
    rw [he']
    exact hB.put_ok now k hK hs (stands_stored hK he he') hc
  get := by
    intro m K h s now k hK hs
    obtain ⟨hanswers, hget⟩ := hB.get now k hK hs
    change Answers coded m K h k (restoreBelow _ (B.get now h k s.2)).1
      (restoreBelow _ (B.get now h k s.2)).2.1 ∧
      Under Holds m K h (restoreBelow _ (B.get now h k s.2)).2.2
    generalize B.get now h k s.2 = r at hanswers hget ⊢
    rcases r with ⟨f | e, h', under⟩
    · exact ⟨⟨hanswers.grows, hanswers.region, by simp [restoreBelow]⟩, hget⟩
    · exact ⟨(answers_restored hanswers coded _).2, hget⟩
  remove := by
    intro m K h s now k hK hs
    obtain ⟨⟨e, he⟩, hanswers, hremove⟩ := hB.remove now k hK hs
    change (∃ r, (restoreBelow _ (B.remove now h k s.2)).1 = .ok r) ∧
      Answers coded m K h k (restoreBelow _ (B.remove now h k s.2)).1
        (restoreBelow _ (B.remove now h k s.2)).2.1 ∧
      Under Holds (m.drop k) K h (restoreBelow _ (B.remove now h k s.2)).2.2
    generalize B.remove now h k s.2 = r at he hanswers hremove ⊢
    obtain ⟨r, h', under⟩ := r
    obtain rfl : r = .ok e := he
    obtain ⟨hok, hrestored⟩ := answers_restored hanswers coded (B.id s.2)
    exact ⟨hok, hrestored, hremove⟩
  clear now hs := hB.clear now hs

end Copying

end Layers

/-- Whether the store of a stack holds coded entries. -/
def storesCoded (coded : Bool) (ls : List Layer) : Bool := coded || ls.contains .copying

namespace Stack

/-- The contract of a stack is about the store at its bottom. -/
def Holds (coded : Bool) (id : String) {ls : List Layer} (m : Contents) (K : ObjId → Prop)
    (h : Heap) (s : Stack ls) : Prop := Store.Holds (storesCoded coded ls) id m K h s.store

variable {coded : Bool} {id : String} {ls : List Layer} {m : Contents} {K : ObjId → Prop}
  {h : Heap}

theorem Holds.of_agreeOn {L : ObjId → Prop} {h' : Heap} {s : Stack ls} (hK : h.Region K)
    (hh : Heap.AgreeOn K h h') (hKL : ∀ o, K o → L o) (hs : Holds coded id m K h s) :
    Holds coded id m L h' s := Store.Holds.of_agreeOn hK hh hKL hs

@[simp] theorem store_withStore (t : Store) (s : Stack ls) : (s.withStore t).store = t := by
  induction ls with
  | nil => rfl
  | cons l ls ih => exact ih s.2

/-- A stack over a new store holds nothing, whatever its layers remember. -/
theorem holds_of_store {s : Stack ls} (hs : s.store = .perpetual id) : Holds coded id m K h s := by
  rw [Holds, hs]
  exact Store.holds_perpetual _ m K h id

end Stack

/-- Every stack of layers keeps the contract, whatever the layers remember. -/
theorem faithful_stackOps (coded : Bool) (id : String) (ls : List Layer) :
    (stackOps ls).Faithful coded (Stack.Holds coded id) := by
  induction ls generalizing coded with
  | nil =>
    have hstore := Store.faithful coded id
    cases coded <;> exact hstore
  | cons l ls ih =>
    have hl := ih coded
    cases l with
    | recency => exact Recency.faithful hl
    | arrival => exact Arrival.faithful hl
    | expiry => exact Expiry.faithful hl
    | gate => exact Gate.faithful hl
    | copying =>
      have hcopying := Copying.faithful (ih true) coded
      cases coded <;> exact hcopying
    | exclusive => exact Exclusive.faithful hl
    | counting => exact Counting.faithful hl

/-- The layers of a stack take their name from the store. -/
theorem stackOps_id {ls : List Layer} (s : Stack ls) : (stackOps ls).id s = s.store.id := by
  induction ls with
  | nil => rfl
  | cons l ls ih => cases l <;> exact ih s.2

namespace Cache

/-- The contract of a cache is that of its stack. -/
def Holds (id : String) (m : Contents) (K : ObjId → Prop) (h : Heap) (c : Cache) : Prop :=
  Stack.Holds false id m K h c.state

theorem faithful (id : String) : CacheOps.Faithful ops false (Holds id) where
  mono {_ _ _ _ s} := (faithful_stackOps false id s.layers).mono
  size {_ _ _ s} := (faithful_stackOps false id s.layers).size
  put {_ _ _ s _ _} := (faithful_stackOps false id s.layers).put
  put_ok {_ _ _ s _ _} := (faithful_stackOps false id s.layers).put_ok
  get {_ _ _ s} := (faithful_stackOps false id s.layers).get
  remove {_ _ _ s} := (faithful_stackOps false id s.layers).remove
  clear {_ _ _ s} := (faithful_stackOps false id s.layers).clear

theorem Holds.of_agreeOn {id : String} {m : Contents} {K L : ObjId → Prop} {h h' : Heap}
    {c : Cache} (hK : h.Region K) (hh : Heap.AgreeOn K h h') (hKL : ∀ o, K o → L o)
    (hc : Holds id m K h c) : Holds id m L h' c := Stack.Holds.of_agreeOn hK hh hKL hc

theorem Holds.id_eq {id : String} {m : Contents} {K : ObjId → Prop} {h : Heap} {c : Cache}
    (hc : Holds id m K h c) : c.id = id := (stackOps_id c.state).trans (Store.Holds.id_eq hc)

end Cache

end ResultCache
