import ResultCache.Proofs.Cache.Locks
import ResultCache.Proofs.Cache.Names
import ResultCache.Proofs.Table

/-!
# What is in the store of a cache

`CacheOps.Stocks` says what the operations of a cache do to the entries in the store at its bottom:
only a put adds one, in the form in which the store keeps it (`Entry.kept`), a clear takes all away,
and a read finds what the store has, copied if it is coded (`Entry.Shows`). Unlike the contract of
`CacheOps.Faithful` this asks nothing of the objects, which may be changed at any time, or of the
store, which may refuse any operation.

It holds for the store and stays true below every layer, so it holds for every stack
(`stocks_stackOps`). Of the calls of a unit of work only a commit adds entries, which are those that
its buffer writes (`CacheOps.Stocks.run`).
-/
namespace ResultCache

namespace Entry

/-- The form in which a store keeps an entry that is put while objects are like this. -/
def kept (coded : Bool) (h : Heap) : Entry → Entry
  | .rows vs => if coded then .encoded (h.encodeRows vs) else .rows vs
  | e => e

/-- Whether there are rows in it, coded or not. -/
def bearsRows : Entry → Bool
  | .rows _ | .encoded _ => true
  | _ => false

/-- What a reader gets for a stored entry: the entry itself, or new rows made of its bytes. Next to
it is what objects are like then. -/
inductive Shows (e : Entry) : Entry → Heap → Prop
  | same (h : Heap) : Shows e e h
  | copied {bs : List UInt8} {fs : List Frozen} (h : Heap) (he : e = .encoded bs)
    (hfs : Frozen.decodeRows bs = .ok fs) :
    Shows e (.rows (Frozen.thawAll fs h).1) (Frozen.thawAll fs h).2

/-- A coded entry stays as it is wherever it is put. -/
theorem kept_kept (coded : Bool) (h : Heap) (e : Entry) :
    (e.kept true h).kept coded h = e.kept true h := by
  cases e <;> rfl

end Entry

/-- What the operations of a cache do to the entries at its bottom, where `Has s k e` says that `e`
is there for a key, and `coded` whether rows are kept coded. -/
structure CacheOps.Stocks {σ : Type} (B : CacheOps σ) (coded : Bool)
    (Has : σ → Key → Entry → Prop) : Prop where
  size : ∀ {s k e} now, Has (B.size now s).2 k e → Has s k e
  put : ∀ {s k e} now h j x, Has (B.put now h j x s).2 k e →
    Has s k e ∨ (k = j ∧ e = x.kept coded h)
  get : ∀ {s k e} now h j, Has (B.get now h j s).2.2 k e → Has s k e
  found : ∀ {s e} now h k, (B.get now h k s).1 = .ok (some e) →
    ∃ e', Has s k e' ∧ e'.Shows e (B.get now h k s).2.1
  remove : ∀ {s k e} now h j, Has (B.remove now h j s).2.2 k e → Has s k e
  clear : ∀ {s k e} now, ¬ Has (B.clear now s) k e

theorem Store.stocks (coded : Bool) (hcoded : coded = false) :
    Store.ops.Stocks coded fun s k e => s.entries.get? k = some e where
  size _ hs := hs
  put {s k e} now h j x hs := by
    change (s.put j x).2.entries.get? k = some e at hs
    rw [Store.put] at hs
    split at hs
    · exact .inl hs
    · by_cases hk : k = j
      · subst hk
        rw [Table.get?_insert_self] at hs
        obtain rfl := Option.some.inj hs
        refine .inr ⟨rfl, ?_⟩
        rw [hcoded]
        cases x <;> rfl
      · rw [Table.get?_insert_of_ne _ _ hk] at hs
        exact .inl hs
  get _ _ _ hs := hs
  found {s e} now h k hs := by
    change s.get k = .ok (some e) at hs
    rw [Store.get] at hs
    split at hs
    · cases hs
    · exact ⟨e, Except.ok.inj hs, .same h⟩
  remove {s k e} now h j hs := by
    change (s.remove j).2.entries.get? k = some e at hs
    rw [Store.remove] at hs
    split at hs
    · exact hs
    · by_cases hk : k = j
      · subst hk
        rw [Table.get?_erase_self] at hs
        cases hs
      · rw [Table.get?_erase_of_ne _ hk] at hs
        exact hs
  clear now hs := by cases hs

section Layers

variable {σ : Type} {B : CacheOps σ} {coded : Bool} {Has : σ → Key → Entry → Prop}

theorem Recency.stocks (hB : B.Stocks coded Has) :
    (Recency.ops B).Stocks coded fun s => Has s.2 where
  size now hs := hB.size now hs
  put {s k e} now h j x hs := by
    have hput := fun hs => hB.put (s := s.2) (k := k) (e := e) now h j x hs
    change Has (Recency.put B now h j x s).2.2 k e at hs
    rw [Recency.put] at hs
    generalize B.put now h j x s.2 = r at hput hs
    rcases r with ⟨_ | ⟨⟩, under⟩
    · exact hput hs
    · dsimp only at hs
      generalize s.1.push j = p at hs
      rcases p with ⟨_ | eldest, r⟩
      · exact hput hs
      · exact hput (hB.remove (now + 1) h eldest hs)
  get now h j hs := hB.get now h j hs
  found now h k hs := hB.found now h k hs
  remove now h j hs := hB.remove now h j hs
  clear now hs := hB.clear now hs

theorem Arrival.stocks (hB : B.Stocks coded Has) :
    (Arrival.ops B).Stocks coded fun s => Has s.2 where
  size now hs := hB.size now hs
  put {s k e} now h j x hs := by
    change Has (Arrival.put B now h j x s).2.2 k e at hs
    rw [Arrival.put] at hs
    generalize s.1.push j = p at hs
    rcases p with ⟨_ | oldest, a⟩
    · exact hB.put now h j x hs
    · have hremove := fun hs => hB.remove (s := s.2) (k := k) (e := e) now h oldest hs
      dsimp only at hs
      generalize B.remove now h oldest s.2 = r at hremove hs
      rcases r with ⟨_ | _, h', under⟩
      · exact .inl (hremove hs)
      · exact (hB.put (now + 1) h j x hs).imp_left hremove
  get now h j hs := hB.get now h j hs
  found now h k hs := hB.found now h k hs
  remove now h j hs := hB.remove now h j hs
  clear now hs := hB.clear now hs

theorem Expiry.stocks (hB : B.Stocks coded Has) :
    (Expiry.ops B).Stocks coded fun s => Has s.2 := by
  have hrefresh : ∀ {s : Expiry × σ} {k : Key} {e : Entry} (now : Instant),
      Has (if s.1.stale now then Expiry.clear B now s else s).2 k e → Has s.2 k e := by
    intro s k e now hs
    split at hs
    · exact absurd hs (hB.clear now)
    · exact hs
  refine ⟨fun now hs => hrefresh now (hB.size now hs),
    fun now h j x hs => (hB.put now h j x hs).imp_left (hrefresh now), fun {s k e} now h j hs => ?_,
    fun {s e} now h k hs => ?_, fun {s k e} now h j hs => ?_, fun now hs => hB.clear now hs⟩
  · change Has (Expiry.get B now h j s).2.2.2 k e at hs
    rw [Expiry.get] at hs
    split at hs
    · exact absurd hs (hB.clear now)
    · exact hB.get now h j hs
  · change (Expiry.get B now h k s).1 = .ok (some e) at hs
    change ∃ e', Has s.2 k e' ∧ e'.Shows e (Expiry.get B now h k s).2.1
    rw [Expiry.get] at hs ⊢
    split at hs
    · cases hs
    · rename_i hfresh
      rw [if_neg hfresh]
      exact hB.found now h k hs
  · change Has (Expiry.remove B now h j s).2.2.2 k e at hs
    rw [Expiry.remove] at hs
    split at hs
    · exact absurd hs (hB.clear now)
    · exact hB.remove now h j hs

theorem Gate.stocks (hB : B.Stocks coded Has) : (Gate.ops B).Stocks coded fun s => Has s.2 where
  size now hs := hB.size now hs
  put now h j x hs := hB.put now h j x hs
  get {s k e} now h j hs := by
    have hget := fun hs => hB.get (s := s.2) (k := k) (e := e) now h j hs
    change Has (Gate.get B now h j s).2.2.2 k e at hs
    rw [Gate.get] at hs
    split at hs
    · exact hs
    · generalize B.get now h j s.2 = r at hget hs
      rcases r with ⟨_ | _ | _, h', under⟩ <;> exact hget hs
  found {s e} now h k hs := by
    have hfound := fun hs => hB.found (s := s.2) (e := e) now h k hs
    change (Gate.get B now h k s).1 = .ok (some e) at hs
    change ∃ e', Has s.2 k e' ∧ e'.Shows e (Gate.get B now h k s).2.1
    rw [Gate.get] at hs ⊢
    split at hs
    · cases hs
    · rename_i hfree
      rw [if_neg hfree]
      generalize B.get now h k s.2 = r at hfound hs ⊢
      rcases r with ⟨_ | _ | _, h', under⟩
      · cases hs
      · cases hs
      · exact hfound hs
  remove now h j hs := hB.remove now h j hs
  clear now hs := hB.clear now hs

/-- Rows are coded before they go on, so all that is below is coded. -/
theorem Copying.stocks (hB : B.Stocks coded Has) :
    (Copying.ops B).Stocks true fun s => Has s.2 := by
  refine ⟨fun now hs => hB.size now hs, fun {s k e} now h j x hs => ?_,
    fun {s k e} now h j hs => ?_, fun {s e} now h k hs => ?_, fun {s k e} now h j hs => ?_,
    fun now hs => hB.clear now hs⟩
  · change Has (Copying.put B now h j x s).2.2 k e at hs
    have hstored : ∀ {x'}, Copying.stored (B.id s.2) h x = .ok x' → x' = x.kept true h := by
      intro x' hx'
      cases x <;> cases hx' <;> rfl
    rw [Copying.put] at hs
    split at hs
    · rename_i x' hx'
      refine (hB.put now h j x' hs).imp_right fun he => ⟨he.1, ?_⟩
      rw [he.2, hstored hx', Entry.kept_kept]
    · exact .inl hs
  · change Has (Copying.restoreBelow _ (B.get now h j s.2)).2.2.2 k e at hs
    rw [Copying.snd_restoreBelow] at hs
    exact hB.get now h j hs
  · have hfound := fun e hs => hB.found (s := s.2) (e := e) now h k hs
    change (Copying.restoreBelow _ (B.get now h k s.2)).1 = .ok (some e) at hs
    change ∃ e', Has s.2 k e' ∧ e'.Shows e (Copying.restoreBelow (B.id s.2) (B.get now h k s.2)).2.1
    generalize B.get now h k s.2 = r at hfound hs ⊢
    rcases r with ⟨f | x, h', under⟩
    · cases hs
    · rcases x with _ | x
      · cases hs
      · obtain ⟨e', he', hshows⟩ := hfound x rfl
        refine ⟨e', he', ?_⟩
        cases x with
        | encoded bs =>
          rw [Copying.restoreBelow] at hs ⊢
          rw [Copying.restored] at hs ⊢
          cases hbs : Frozen.decodeRows bs with
          | error why =>
            rw [hbs] at hs
            cases hs
          | ok fs =>
            rw [hbs] at hs
            cases hs
            cases hshows with
            | same => exact .copied h' rfl hbs
        | _ =>
          cases hs
          exact hshows
  · change Has (Copying.restoreBelow _ (B.remove now h j s.2)).2.2.2 k e at hs
    rw [Copying.snd_restoreBelow] at hs
    exact hB.remove now h j hs

theorem Exclusive.stocks (hB : B.Stocks coded Has) :
    (Exclusive.ops B).Stocks coded fun s => Has s.2 where
  size now hs := hB.size now hs
  put now h j x hs := hB.put now h j x hs
  get now h j hs := hB.get now h j hs
  found now h k hs := hB.found now h k hs
  remove now h j hs := hB.remove now h j hs
  clear now hs := hB.clear now hs

theorem Counting.stocks (hB : B.Stocks coded Has) :
    (Counting.ops B).Stocks coded fun s => Has s.2 where
  size now hs := hB.size now hs
  put now h j x hs := hB.put now h j x hs
  get {s k e} now h j hs := by
    have hget := fun hs => hB.get (s := s.2) (k := k) (e := e) now h j hs
    change Has (Counting.get B now h j s).2.2.2 k e at hs
    rw [Counting.get] at hs
    generalize B.get now h j s.2 = r at hget hs
    rcases r with ⟨_ | _, h', under⟩ <;> exact hget hs
  found {s e} now h k hs := by
    have hfound := fun hs => hB.found (s := s.2) (e := e) now h k hs
    change (Counting.get B now h k s).1 = .ok (some e) at hs
    change ∃ e', Has s.2 k e' ∧ e'.Shows e (Counting.get B now h k s).2.1
    rw [Counting.get] at hs ⊢
    generalize B.get now h k s.2 = r at hfound hs ⊢
    rcases r with ⟨_ | _, h', under⟩
    · cases hs
    · exact hfound hs
  remove now h j hs := hB.remove now h j hs
  clear now hs := hB.clear now hs

end Layers

/-- What is in the store of a stack changes as the contract says, whatever its layers. -/
theorem stocks_stackOps (ls : List Layer) :
    (stackOps ls).Stocks (storesCoded false ls) fun s k e => s.store.entries.get? k = some e := by
  induction ls with
  | nil => exact Store.stocks _ rfl
  | cons l ls ih =>
    cases l with
    | recency => exact Recency.stocks ih
    | arrival => exact Arrival.stocks ih
    | expiry => exact Expiry.stocks ih
    | gate => exact Gate.stocks ih
    | copying => exact Copying.stocks ih
    | exclusive => exact Exclusive.stocks ih
    | counting => exact Counting.stocks ih

namespace CacheOps.Stocks

variable {σ : Type} {B : CacheOps σ} {coded : Bool} {Has : σ → Key → Entry → Prop}
  (hB : B.Stocks coded Has) {k : Key} {e : Entry}

include hB

theorem storeAll {h : Heap} {ws : List (Key × Entry)} {now : Instant} {s : σ}
    (hs : Has (Buffer.storeAll B h now ws s).2 k e) :
    Has s k e ∨ ∃ x, (k, x) ∈ ws ∧ e = x.kept coded h := by
  induction ws generalizing now s with
  | nil => exact .inl hs
  | cons w ws ih =>
    have hrest : Has (Buffer.storeAll B h (now + 1) ws (B.put now h w.1 w.2 s).2).2 k e := by
      rw [Buffer.storeAll] at hs
      dsimp only at hs
      split at hs <;> exact hs
    obtain hput | ⟨x, hx, he⟩ := ih hrest
    · obtain hbefore | ⟨rfl, he⟩ := hB.put now h w.1 w.2 hput
      · exact .inl hbefore
      · exact .inr ⟨w.2, List.mem_cons_self, he⟩
    · exact .inr ⟨x, List.mem_cons_of_mem _ hx, he⟩

theorem removeAll {h : Heap} {ks : List Key} {now : Instant} {s : σ}
    (hs : Has (Buffer.removeAll B h now ks s) k e) : Has s k e := by
  induction ks generalizing now s with
  | nil => exact hs
  | cons j ks ih => exact hB.remove now h j (ih hs)

/-- A commit leaves no more than it writes, and what was there unless it clears that. -/
theorem commit {now : Instant} {h : Heap} {b : Buffer} {s : σ}
    (hs : Has (Buffer.commit B now h b s).2.2 k e) :
    (b.clearing = false ∧ Has s k e) ∨ ∃ x, (k, x) ∈ b.writes ∧ e = x.kept coded h := by
  refine (hB.storeAll hs).imp_left fun hcleared => ?_
  split at hcleared
  · exact absurd hcleared (hB.clear now)
  · rename_i hclearing
    exact ⟨by simpa using hclearing, hcleared⟩

/-- Only a commit adds entries, and it adds those that it writes, in whatever order. -/
theorem run {c : WorkCall} {m : Buffer × σ} (hs : Has (c.run B m).2 k e) :
    (Has m.2 k e ∧ ∀ now h w, c = .commit now h w → m.1.clearing = false) ∨
    ∃ now h w x, c = .commit now h w ∧ (k, x) ∈ m.1.writes ∧ e = x.kept coded h := by
  have hother : Has m.2 k e → (∀ now h w, c ≠ .commit now h w) →
      (Has m.2 k e ∧ ∀ now h w, c = .commit now h w → m.1.clearing = false) ∨
      ∃ now h w x, c = .commit now h w ∧ (k, x) ∈ m.1.writes ∧ e = x.kept coded h :=
    fun hm hc => .inl ⟨hm, fun now h w heq => absurd heq (hc now h w)⟩
  cases c with
  | get now h j =>
    have hget := fun hs => hB.get (s := m.2) (k := k) (e := e) now h j hs
    refine hother ?_ (by simp)
    rw [WorkCall.run, Buffer.get] at hs
    split at hs
    · exact hs
    · split at hs
      · exact hs
      · generalize B.get now h j m.2 = r at hget hs
        rcases r with ⟨_ | _ | _, h', s⟩ <;> exact hget hs
  | put j x => exact hother hs (by simp)
  | clear => exact hother hs (by simp)
  | release now h j =>
    refine hother ?_ (by simp)
    rw [WorkCall.run, Buffer.release] at hs
    split at hs
    · exact hB.remove now h j hs
    · exact hs
  | commit now h w =>
    obtain ⟨hclearing, hm⟩ | ⟨x, hx, hkept⟩ := hB.commit hs
    · exact .inl ⟨hm, fun _ _ _ _ => (w.reorders m.1).clearing.symm.trans hclearing⟩
    · exact .inr ⟨now, h, w, x, rfl, (w.reorders m.1).pair_mem_writes.1 hx, hkept⟩
  | rollback now h w => exact hother (hB.removeAll hs) (by simp)

/-- What is read through a buffer is in the buffer or in the cache. -/
theorem read {now : Instant} {h : Heap} {b : Buffer} {s : σ}
    (hs : (Buffer.get B now h k b s).1 = .ok (some e)) :
    (b.pending.get? k = some e) ∨
    (b.pending.get? k = none ∧ ∃ e', Has s k e' ∧ e'.Shows e (Buffer.get B now h k b s).2.1) := by
  have hfound := fun e hs => hB.found (s := s) (e := e) now h k hs
  rw [Buffer.get] at hs ⊢
  cases hpending : b.pending.get? k with
  | some x =>
    rw [hpending] at hs
    exact .inl (congrArg some (Option.some.inj (Except.ok.inj hs)))
  | none =>
    rw [hpending] at hs
    refine .inr ⟨rfl, ?_⟩
    dsimp only at hs ⊢
    split at hs
    · cases hs
    · rename_i hmissed
      rw [if_neg hmissed]
      generalize B.get now h k s = r at hfound hs ⊢
      rcases r with ⟨_ | _ | x, h', t⟩
      · cases hs
      · cases hs
      · dsimp only at hs ⊢
        split at hs
        · cases hs
        · cases hs
          exact hfound _ rfl

end CacheOps.Stocks

end ResultCache
