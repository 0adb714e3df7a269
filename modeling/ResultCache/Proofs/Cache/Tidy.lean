import ResultCache.Proofs.Cache.Calls
import ResultCache.Proofs.Cache.Eviction
import ResultCache.Proofs.Cache.Stock

/-!
# What keeps a cache within a bound

For a layer to list every key with an entry, the cache below has to be tidy (`CacheOps.Tidy`): a
removal takes its key away whatever it returns, and a put that fails adds nothing. Each layer is tidy
over a tidy cache, with one exception: a layer of recently used keys stores an entry before it makes
room for it, so a put that fails may have stored it if the removal that makes room can fail. Removals
fail where a copying layer decodes bytes that mean nothing; entries that can be put through it and
read back are `Legible`.
-/
namespace ResultCache

namespace Entry

/-- The entry is not in encoded form, or it can be decoded. -/
def Readable : Entry → Prop
  | .encoded bs => ∃ fs, Frozen.decodeRows bs = .ok fs
  | _ => True

/-- What a copying layer stores for the entry can be read back. -/
def Legible (h : Heap) (e : Entry) : Prop := (e.kept true h).Readable

theorem Legible.readable {h : Heap} {e : Entry} (he : e.Legible h) : e.Readable := by
  cases e with
  | encoded bs => exact he
  | _ => trivial

theorem legible_of_stored {cache : String} {h : Heap} {e e' : Entry} (he : e.Legible h)
    (hstored : Copying.stored cache h e = .ok e') : e'.Legible h := by
  cases e <;> cases hstored <;> exact he

/-- An entry as a caller can have it is legible. -/
theorem Plain.legible {h : Heap} {e : Entry} (he : e.Plain h) : e.Legible h := by
  obtain ⟨K, c, hK, hc⟩ := he
  cases hc with
  | rows hvs hlen => exact ⟨_, h.decodeRows_encodeRows hK hvs hlen⟩
  | encoded hcoded => cases hcoded
  | _ => trivial

end Entry

def CacheCall.Legible : CacheCall → Prop
  | put _ h _ e => e.Legible h
  | _ => True

/-- What keeps a cache within a bound above it. `P` says that the state is in order and `Has s k e`
that there is an entry, `legible` that only legible entries are put, `returns` that a removal always
returns, and `clean` that a put that fails adds nothing. -/
structure CacheOps.Tidy {σ : Type} (B : CacheOps σ) (legible returns clean : Bool) (P : σ → Prop)
    (Has : σ → Key → Entry → Prop) : Prop where
  size : ∀ {s} now, P s → P (B.size now s).2
  put : ∀ {s e} now h k, (legible = true → e.Legible h) → P s → P (B.put now h k e s).2
  put_error : ∀ {s e f j x} now h k, clean = true → (legible = true → e.Legible h) → P s →
    (B.put now h k e s).1 = .error f → Has (B.put now h k e s).2 j x → Has s j x
  get : ∀ {s} now h k, P s → P (B.get now h k s).2.2
  remove : ∀ {s} now h k, P s → P (B.remove now h k s).2.2
  remove_self : ∀ {s x} now h k, P s → ¬ Has (B.remove now h k s).2.2 k x
  remove_ok : ∀ {s} now h k, returns = true → P s → ∃ r, (B.remove now h k s).1 = .ok r
  removed : ∀ {s e} now h k, legible = true → P s → (B.remove now h k s).1 = .ok (some e) →
    e.Readable
  clear : ∀ {s} now, P s → P (B.clear now s)

/-- A run of calls leaves the state in order. -/
theorem CacheOps.Tidy.after {σ : Type} {B : CacheOps σ} {legible returns clean : Bool}
    {P : σ → Prop} {Has : σ → Key → Entry → Prop} (hB : B.Tidy legible returns clean P Has) {s : σ}
    (hs : P s) {past : List CacheCall} (hpast : legible = true → ∀ c ∈ past, c.Legible) :
    P (CacheCall.after B s past) := by
  induction past with
  | nil => exact hs
  | cons c past ih =>
    have hafter := ih fun hl d hd => hpast hl d (List.mem_cons_of_mem _ hd)
    have hc := fun hl => hpast hl c List.mem_cons_self
    cases c with
    | put now h k e => exact hB.put now h k hc hafter
    | get now h k => exact hB.get now h k hafter
    | remove now h k => exact hB.remove now h k hafter
    | clear now => exact hB.clear now hafter
    | size now => exact hB.size now hafter

namespace Store

/-- The store refuses nothing, and what it holds can be decoded. -/
def Open (legible : Bool) (s : Store) : Prop :=
  s.refused = [] ∧ (legible = true → ∀ k e, s.entries.get? k = some e → e.Readable)

theorem Open.of_le {legible : Bool} {s t : Store} (hs : s.Open legible)
    (hrefused : t.refused = s.refused)
    (ht : ∀ k e, t.entries.get? k = some e → s.entries.get? k = some e) : t.Open legible := by
  constructor
  · rw [hrefused]
    exact hs.1
  · intro hl k e he
    exact hs.2 hl k e (ht k e he)

theorem put_open {legible : Bool} {s : Store} (hs : s.Open legible) (k : Key) (e : Entry) :
    s.put k e = (.ok (), { s with entries := s.entries.insert k e }) := by
  rw [put, if_neg (by simp [hs.1])]

theorem remove_open {legible : Bool} {s : Store} (hs : s.Open legible) (k : Key) :
    s.remove k = (.ok (s.entries.get? k), { s with entries := s.entries.erase k }) := by
  rw [remove, if_neg (by simp [hs.1])]

theorem get?_erase_le (t : Entries) {k j : Key} {e : Entry} (he : (t.erase k).get? j = some e) :
    t.get? j = some e := by
  by_cases hj : j = k
  · subst hj
    simp at he
  · rwa [Table.get?_erase_of_ne t hj] at he

theorem tidy (legible returns clean : Bool) :
    ops.Tidy legible returns clean (Open legible) fun s k e => s.entries.get? k = some e where
  size _ hs := hs
  put {s e} now h k he hs := by
    change (s.put k e).2.Open legible
    rw [put_open hs]
    refine ⟨hs.1, fun hl j x hx => ?_⟩
    by_cases hj : j = k
    · subst hj
      obtain rfl : e = x := by simpa using hx
      exact (he hl).readable
    · exact hs.2 hl j x ((Table.get?_insert_of_ne s.entries e hj).symm.trans hx)
  put_error {s e f j x} now h k _ _ hs hf _ := by
    change (s.put k e).1 = _ at hf
    rw [put_open hs] at hf
    cases hf
  get _ _ _ hs := hs
  remove {s} now h k hs := by
    change (s.remove k).2.Open legible
    rw [remove_open hs]
    exact hs.of_le rfl fun j x => get?_erase_le s.entries
  remove_self {s x} now h k hs := by
    change ¬ (s.remove k).2.entries.get? k = some x
    rw [remove_open hs]
    simp
  remove_ok {s} now h k _ hs := by
    change ∃ r, (s.remove k).1 = .ok r
    rw [remove_open hs]
    exact ⟨_, rfl⟩
  removed {s e} now h k hl hs he := by
    change (s.remove k).1 = _ at he
    rw [remove_open hs] at he
    exact hs.2 hl k e (Except.ok.inj he)
  clear now hs := hs.of_le rfl fun _ _ he => by cases he

end Store

section Layers

variable {σ : Type} {B : CacheOps σ} {legible returns clean coded : Bool} {P : σ → Prop}
  {Has : σ → Key → Entry → Prop}

/-- The layer is for `n` keys, and if puts that fail add nothing below, it lists every key that has
an entry. -/
def Recency.Within (clean : Bool) (n : Nat) (Has : σ → Key → Entry → Prop) (s : Recency × σ) :
    Prop :=
  s.1.capacity = n ∧ (clean = true → Covers (Has s.2) n s.1.index)

theorem Recency.Within.below {n : Nat} {s : Recency × σ} {t : σ}
    (hs : Recency.Within clean n Has s) (ht : clean = true → ∀ k e, Has t k e → Has s.2 k e) :
    Recency.Within clean n Has (s.1, t) :=
  ⟨hs.1, fun hclean => (hs.2 hclean).mono (ht hclean)⟩

theorem Recency.Within.touch {n : Nat} {s : Recency × σ} (hs : Recency.Within clean n Has s)
    (k : Key) : Recency.Within clean n Has (s.1.touch k, s.2) := by
  constructor
  · exact (capacity_touch s.1 k).trans hs.1
  · intro hclean
    have hcovers := hs.2 hclean
    constructor
    · exact Nat.le_trans (length_touch s.1 k) hcovers.length_le
    · intro j e he
      exact mem_touch.2 (hcovers.mem j e he)

/-- After a put the key is listed, and the one that fell out has no entry. -/
theorem Recency.Within.push {n : Nat} {s : Recency × σ} {t : σ} {k : Key}
    (hs : Recency.Within clean n Has s)
    (ht : ∀ j e, Has t j e → (j = k ∨ Has s.2 j e) ∧ (s.1.push k).1 ≠ some j) :
    Recency.Within clean n Has ((s.1.push k).2, t) := by
  constructor
  · exact (capacity_push s.1 k).trans hs.1
  · intro hclean
    have hcovers := hs.2 hclean
    obtain rfl := hs.1
    apply hcovers.cycle
    · exact length_push hcovers.length_le
    · exact mem_push_self s.1 k
    · exact fun j hj => mem_push_or_evicted hj
    · intro j e he
      obtain ⟨hj, hout⟩ := ht j e he
      exact hj.imp_right fun hj => ⟨hj, hout⟩

/-- The three ways a put ends: the put below fails, or it returns and no key falls out, or one does
and is removed. -/
theorem Recency.put_cases (now : Instant) (h : Heap) (k : Key) (e : Entry) (s : Recency × σ) :
    (∃ f, (B.put now h k e s.2).1 = .error f ∧
      Recency.put B now h k e s = (.error f, s.1, (B.put now h k e s.2).2)) ∨
    ((B.put now h k e s.2).1 = .ok () ∧ (s.1.push k).1 = none ∧
      Recency.put B now h k e s = (.ok (), (s.1.push k).2, (B.put now h k e s.2).2)) ∨
    ∃ eldest, (B.put now h k e s.2).1 = .ok () ∧ (s.1.push k).1 = some eldest ∧
      Recency.put B now h k e s =
        ((B.remove (now + 1) h eldest (B.put now h k e s.2).2).1.map fun _ => (),
          (s.1.push k).2, (B.remove (now + 1) h eldest (B.put now h k e s.2).2).2.2) := by
  rw [Recency.put]
  generalize B.put now h k e s.2 = r
  generalize s.1.push k = p
  rcases r with ⟨f | ⟨⟩, under⟩
  · exact .inl ⟨f, rfl, rfl⟩
  · rcases p with ⟨_ | eldest, r⟩
    · exact .inr (.inl ⟨rfl, rfl, rfl⟩)
    · exact .inr (.inr ⟨eldest, rfl, rfl, rfl⟩)

theorem Recency.tidy (hS : B.Stocks coded Has) (hB : B.Tidy legible returns clean P Has) (n : Nat) :
    (Recency.ops B).Tidy legible returns (returns && clean)
      (fun s => P s.2 ∧ Recency.Within clean n Has s) fun s => Has s.2 where
  size now hs := ⟨hB.size now hs.1, hs.2.below fun _ _ _ => hS.size now⟩
  put {s e} now h k he hs := by
    have hput := hB.put now h k he hs.1
    have hstocks := fun j x hj => hS.put (s := s.2) (k := j) (e := x) now h k e hj
    change P (Recency.put B now h k e s).2.2 ∧
      Recency.Within clean n Has (Recency.put B now h k e s).2
    rcases put_cases now h k e s with ⟨f, hf, heq⟩ | ⟨-, hnone, heq⟩ | ⟨eldest, -, hout, heq⟩
    · rw [heq]
      exact ⟨hput, hs.2.below fun hclean j x => hB.put_error now h k hclean he hs.1 hf⟩
    · rw [heq]
      refine ⟨hput, hs.2.push fun j x hj => ⟨?_, by simp [hnone]⟩⟩
      exact (hstocks j x hj).symm.imp_left And.left
    · rw [heq]
      refine ⟨hB.remove (now + 1) h eldest hput, hs.2.push fun j x hj => ⟨?_, ?_⟩⟩
      · exact (hstocks j x (hS.remove (now + 1) h eldest hj)).symm.imp_left And.left
      · rw [hout]
        rintro ⟨⟩
        exact hB.remove_self (now + 1) h eldest hput hj
  put_error {s e f j x} now h k hclean he hs hf hj := by
    obtain ⟨hreturns, hclean⟩ := Bool.and_eq_true_iff.1 hclean
    change (Recency.put B now h k e s).1 = .error f at hf
    change Has (Recency.put B now h k e s).2.2 j x at hj
    rcases put_cases now h k e s with ⟨f, hf, heq⟩ | ⟨-, -, heq⟩ | ⟨eldest, -, -, heq⟩
    · rw [heq] at hj
      exact hB.put_error now h k hclean he hs.1 hf hj
    · rw [heq] at hf
      cases hf
    · obtain ⟨r, hr⟩ := hB.remove_ok (now + 1) h eldest hreturns (hB.put now h k he hs.1)
      rw [heq, hr] at hf
      cases hf
  get now h k hs :=
    ⟨hB.get now h k hs.1, (hs.2.below (t := _) fun _ _ _ => hS.get now h k).touch k⟩
  remove now h k hs := ⟨hB.remove now h k hs.1, hs.2.below fun _ _ _ => hS.remove now h k⟩
  remove_self now h k hs := hB.remove_self now h k hs.1
  remove_ok now h k hreturns hs := hB.remove_ok now h k hreturns hs.1
  removed now h k hl hs he := hB.removed now h k hl hs.1 he
  clear now hs :=
    ⟨hB.clear now hs.1, hs.2.1, fun _ => ⟨Nat.zero_le n, fun _ _ he => absurd he (hS.clear now)⟩⟩

/-- The layer is for `n` keys, and if that is any at all, it lists every key that has an entry. -/
def Arrival.Within (n : Nat) (Has : σ → Key → Entry → Prop) (s : Arrival × σ) : Prop :=
  s.1.bound = n ∧ (0 < n → Covers (Has s.2) n s.1.queue)

theorem Arrival.Within.below {n : Nat} {s : Arrival × σ} {t : σ} (hs : Arrival.Within n Has s)
    (ht : ∀ k e, Has t k e → Has s.2 k e) : Arrival.Within n Has (s.1, t) :=
  ⟨hs.1, fun hpos => (hs.2 hpos).mono ht⟩

theorem Arrival.Within.push {n : Nat} {s : Arrival × σ} {t : σ} {k : Key}
    (hs : Arrival.Within n Has s)
    (ht : ∀ j e, Has t j e → j = k ∨ Has s.2 j e ∧ (s.1.push k).1 ≠ some j) :
    Arrival.Within n Has ((s.1.push k).2, t) := by
  constructor
  · exact (bound_push s.1 k).trans hs.1
  · intro hpos
    have hcovers := hs.2 hpos
    obtain rfl := hs.1
    apply hcovers.cycle
    · exact length_push hcovers.length_le
    · exact mem_push_self hpos k
    · exact fun j hj => mem_push_or_evicted hj
    · exact ht

/-- The three ways a put ends: no key leaves, or one leaves and the removal of it fails or returns. -/
theorem Arrival.put_cases (now : Instant) (h : Heap) (k : Key) (e : Entry) (s : Arrival × σ) :
    ((s.1.push k).1 = none ∧
      Arrival.put B now h k e s = below (s.1.push k).2 (B.put now h k e s.2)) ∨
    ∃ oldest, (s.1.push k).1 = some oldest ∧
      ((∃ f, Arrival.put B now h k e s =
          (.error f, (s.1.push k).2, (B.remove now h oldest s.2).2.2)) ∨
        Arrival.put B now h k e s =
          below (s.1.push k).2 (B.put (now + 1) h k e (B.remove now h oldest s.2).2.2)) := by
  rw [Arrival.put]
  generalize s.1.push k = p
  rcases p with ⟨_ | oldest, a⟩
  · exact .inl ⟨rfl, rfl⟩
  · refine .inr ⟨oldest, rfl, ?_⟩
    dsimp only
    generalize B.remove now h oldest s.2 = r
    rcases r with ⟨f | _, h', under⟩
    · exact .inl ⟨f, rfl⟩
    · exact .inr rfl

theorem Arrival.tidy (hS : B.Stocks coded Has) (hB : B.Tidy legible returns clean P Has) (n : Nat) :
    (Arrival.ops B).Tidy legible returns clean
      (fun s => P s.2 ∧ Arrival.Within n Has s) fun s => Has s.2 where
  size now hs := ⟨hB.size now hs.1, hs.2.below fun _ _ => hS.size now⟩
  put {s e} now h k he hs := by
    change P (Arrival.put B now h k e s).2.2 ∧ Arrival.Within n Has (Arrival.put B now h k e s).2
    rcases put_cases now h k e s with ⟨hnone, heq⟩ | ⟨oldest, hout, ⟨f, heq⟩ | heq⟩
    · rw [heq]
      refine ⟨hB.put now h k he hs.1, hs.2.push fun j x hj => ?_⟩
      exact (hS.put now h k e hj).symm.imp And.left fun hj => ⟨hj, by simp [hnone]⟩
    all_goals
      have hremove := hB.remove now h oldest hs.1
      have hleft : ∀ j x, Has (B.remove now h oldest s.2).2.2 j x →
          Has s.2 j x ∧ (s.1.push k).1 ≠ some j := by
        intro j x hj
        refine ⟨hS.remove now h oldest hj, ?_⟩
        rw [hout]
        rintro ⟨⟩
        exact hB.remove_self now h oldest hs.1 hj
    · rw [heq]
      exact ⟨hremove, hs.2.push fun j x hj => .inr (hleft j x hj)⟩
    · rw [heq]
      refine ⟨hB.put (now + 1) h k he hremove, hs.2.push fun j x hj => ?_⟩
      exact (hS.put (now + 1) h k e hj).symm.imp And.left (hleft j x)
  put_error {s e f j x} now h k hclean he hs hf hj := by
    change (Arrival.put B now h k e s).1 = .error f at hf
    change Has (Arrival.put B now h k e s).2.2 j x at hj
    rcases put_cases now h k e s with ⟨-, heq⟩ | ⟨oldest, -, ⟨f, heq⟩ | heq⟩
    · rw [heq] at hf hj
      exact hB.put_error now h k hclean he hs.1 hf hj
    · rw [heq] at hj
      exact hS.remove now h oldest hj
    · rw [heq] at hf hj
      have hremove := hB.remove now h oldest hs.1
      exact hS.remove now h oldest (hB.put_error (now + 1) h k hclean he hremove hf hj)
  get now h k hs := ⟨hB.get now h k hs.1, hs.2.below fun _ _ => hS.get now h k⟩
  remove now h k hs := ⟨hB.remove now h k hs.1, hs.2.below fun _ _ => hS.remove now h k⟩
  remove_self now h k hs := hB.remove_self now h k hs.1
  remove_ok now h k hreturns hs := hB.remove_ok now h k hreturns hs.1
  removed now h k hl hs he := hB.removed now h k hl hs.1 he
  clear now hs :=
    ⟨hB.clear now hs.1, hs.2.1, fun _ => ⟨Nat.zero_le n, fun _ _ he => absurd he (hS.clear now)⟩⟩

theorem Expiry.tidy (hS : B.Stocks coded Has) (hB : B.Tidy legible returns clean P Has) :
    (Expiry.ops B).Tidy legible returns clean (fun s => P s.2) fun s => Has s.2 := by
  have hrefresh : ∀ {s : Expiry × σ} (now : Instant), P s.2 →
      P (if s.1.stale now then Expiry.clear B now s else s).2 := by
    intro s now hs
    split
    · exact hB.clear now hs
    · exact hs
  have hstill : ∀ {s : Expiry × σ} {j : Key} {x : Entry} (now : Instant),
      Has (if s.1.stale now then Expiry.clear B now s else s).2 j x → Has s.2 j x := by
    intro s j x now hj
    split at hj
    · exact absurd hj (hS.clear now)
    · exact hj
  constructor
  case size => exact fun now hs => hB.size now (hrefresh now hs)
  case put => exact fun now h k he hs => hB.put now h k he (hrefresh now hs)
  case put_error =>
    intro s e f j x now h k hclean he hs hf hj
    exact hstill now (hB.put_error now h k hclean he (hrefresh now hs) hf hj)
  case get =>
    intro s now h k hs
    change P (Expiry.get B now h k s).2.2.2
    rw [Expiry.get]
    split
    · exact hB.clear now hs
    · exact hB.get now h k hs
  case remove =>
    intro s now h k hs
    change P (Expiry.remove B now h k s).2.2.2
    rw [Expiry.remove]
    split
    · exact hB.clear now hs
    · exact hB.remove now h k hs
  case remove_self =>
    intro s x now h k hs
    change ¬ Has (Expiry.remove B now h k s).2.2.2 k x
    rw [Expiry.remove]
    split
    · exact hS.clear now
    · exact hB.remove_self now h k hs
  case remove_ok =>
    intro s now h k hreturns hs
    change ∃ r, (Expiry.remove B now h k s).1 = .ok r
    rw [Expiry.remove]
    split
    · exact ⟨none, rfl⟩
    · exact hB.remove_ok now h k hreturns hs
  case removed =>
    intro s e now h k hl hs he
    change (Expiry.remove B now h k s).1 = .ok (some e) at he
    rw [Expiry.remove] at he
    split at he
    · cases he
    · exact hB.removed now h k hl hs he
  case clear => exact fun now hs => hB.clear now hs

theorem Gate.tidy (hB : B.Tidy legible returns clean P Has) :
    (Gate.ops B).Tidy legible returns clean (fun s => P s.2) fun s => Has s.2 where
  size now hs := hB.size now hs
  put now h k he hs := hB.put now h k he hs
  put_error now h k hclean he hs hf hj := hB.put_error now h k hclean he hs hf hj
  get {s} now h k hs := by
    have hget := hB.get now h k hs
    change P (Gate.get B now h k s).2.2.2
    rw [Gate.get]
    split
    · exact hs
    · generalize B.get now h k s.2 = r at hget ⊢
      rcases r with ⟨_ | _ | _, h', under⟩ <;> exact hget
  remove now h k hs := hB.remove now h k hs
  remove_self now h k hs := hB.remove_self now h k hs
  remove_ok now h k hreturns hs := hB.remove_ok now h k hreturns hs
  removed now h k hl hs he := hB.removed now h k hl hs he
  clear now hs := hB.clear now hs

/-- What can be decoded is restored. -/
theorem Copying.restored_readable (cache : String) (h : Heap) {r : Option Entry}
    (hr : ∀ e, r = some e → e.Readable) : ∃ e, (Copying.restored cache h r).1 = .ok e := by
  rcases r with _ | e
  · exact ⟨none, rfl⟩
  · cases e with
    | encoded bs =>
      obtain ⟨fs, hfs⟩ := hr _ rfl
      rw [Copying.restored, hfs]
      exact ⟨_, rfl⟩
    | _ => exact ⟨_, rfl⟩

/-- What is restored is not in encoded form. -/
theorem Copying.readable_of_restored {cache : String} {h : Heap} {r : Option Entry} {e : Entry}
    (he : (Copying.restored cache h r).1 = .ok (some e)) : e.Readable := by
  rcases r with _ | x
  · cases he
  · cases x with
    | encoded bs =>
      rw [Copying.restored] at he
      split at he
      · cases he
        trivial
      · cases he
    | _ =>
      cases he
      trivial

/-- What was removed is returned decoded, so a removal of bytes that mean nothing fails after the
entry is gone. -/
theorem Copying.tidy (hB : B.Tidy legible returns clean P Has)
    (hreturns : legible = true → returns = true) :
    (Copying.ops B).Tidy legible legible clean (fun s => P s.2) fun s => Has s.2 := by
  constructor
  case size => exact fun now hs => hB.size now hs
  case put =>
    intro s e now h k he hs
    change P (Copying.put B now h k e s).2.2
    rw [Copying.put]
    split
    · exact hB.put now h k (fun hl => Entry.legible_of_stored (he hl) ‹_›) hs
    · exact hs
  case put_error =>
    intro s e f j x now h k hclean he hs hf hj
    change (Copying.put B now h k e s).1 = .error f at hf
    change Has (Copying.put B now h k e s).2.2 j x at hj
    cases hstored : Copying.stored (B.id s.2) h e with
    | ok e' =>
      rw [Copying.put, hstored] at hf hj
      have he' := fun hl => Entry.legible_of_stored (he hl) hstored
      exact hB.put_error now h k hclean he' hs hf hj
    | error g =>
      rw [Copying.put, hstored] at hj
      exact hj
  case get =>
    intro s now h k hs
    change P (Copying.restoreBelow _ (B.get now h k s.2)).2.2.2
    rw [Copying.snd_restoreBelow]
    exact hB.get now h k hs
  case remove =>
    intro s now h k hs
    change P (Copying.restoreBelow _ (B.remove now h k s.2)).2.2.2
    rw [Copying.snd_restoreBelow]
    exact hB.remove now h k hs
  case remove_self =>
    intro s x now h k hs
    change ¬ Has (Copying.restoreBelow _ (B.remove now h k s.2)).2.2.2 k x
    rw [Copying.snd_restoreBelow]
    exact hB.remove_self now h k hs
  case remove_ok =>
    intro s now h k hl hs
    change ∃ r, (Copying.restoreBelow _ (B.remove now h k s.2)).1 = .ok r
    obtain ⟨r, hr⟩ := hB.remove_ok now h k (hreturns hl) hs
    have hreadable := fun e he => hB.removed (e := e) now h k hl hs he
    generalize B.remove now h k s.2 = p at hr hreadable
    obtain ⟨_, h', under⟩ := p
    subst hr
    exact Copying.restored_readable _ h' fun e he => hreadable e (congrArg _ he)
  case removed =>
    intro s e now h k hl hs he
    change (Copying.restoreBelow _ (B.remove now h k s.2)).1 = .ok (some e) at he
    generalize B.remove now h k s.2 = p at he
    obtain ⟨f | r, h', under⟩ := p
    · cases he
    · exact Copying.readable_of_restored he
  case clear => exact fun now hs => hB.clear now hs

theorem Exclusive.tidy (hB : B.Tidy legible returns clean P Has) :
    (Exclusive.ops B).Tidy legible returns clean (fun s => P s.2) fun s => Has s.2 where
  size now hs := hB.size now hs
  put now h k he hs := hB.put now h k he hs
  put_error now h k hclean he hs hf hj := hB.put_error now h k hclean he hs hf hj
  get now h k hs := hB.get now h k hs
  remove now h k hs := hB.remove now h k hs
  remove_self now h k hs := hB.remove_self now h k hs
  remove_ok now h k hreturns hs := hB.remove_ok now h k hreturns hs
  removed now h k hl hs he := hB.removed now h k hl hs he
  clear now hs := hB.clear now hs

theorem Counting.tidy (hB : B.Tidy legible returns clean P Has) :
    (Counting.ops B).Tidy legible returns clean (fun s => P s.2) fun s => Has s.2 where
  size now hs := hB.size now hs
  put now h k he hs := hB.put now h k he hs
  put_error now h k hclean he hs hf hj := hB.put_error now h k hclean he hs hf hj
  get {s} now h k hs := by
    have hget := hB.get now h k hs
    change P (Counting.get B now h k s).2.2.2
    rw [Counting.get]
    generalize B.get now h k s.2 = r at hget ⊢
    rcases r with ⟨_ | _, h', under⟩ <;> exact hget
  remove now h k hs := hB.remove now h k hs
  remove_self now h k hs := hB.remove_self now h k hs
  remove_ok now h k hreturns hs := hB.remove_ok now h k hreturns hs
  removed now h k hl hs he := hB.removed now h k hl hs he
  clear now hs := hB.clear now hs

end Layers

end ResultCache
