import ResultCache.Proofs.Cache.ConfiguredSize

/-!
# Giving locks back through a stack

A put or a removal of a key is meant to unlock the key in every locking layer of a stack. A layer
above a lock can keep the call from getting there in two ways. A layer that clears at intervals
answers a removal itself when its time is up, and the lock below it stays (`Hidden`). A layer that
keeps the latest arrivals ends a put if it fails to make room for the new key, before the put gets
any further (`Jammed`); that takes an entry that cannot be decoded.

Nothing else keeps a key locked (`Cache.locked_after_release`), and a key that is not locked is read
without waiting until it has been read again. `Cache.release_leaves_locks` are built caches in which
each of the two happens.
-/
namespace ResultCache

/-- Whether a read failed because its key was locked, after a wait or without one. -/
def Fault.OfLock : Fault → Prop
  | .lockTimeout .. | .endlessWait .. => True
  | _ => False

def CacheCall.Reads : CacheCall → Key → Prop
  | .get _ _ j, k => j = k
  | _, _ => False

/-- What the operations of a cache do to the locks in it. `Locked s k` says that the key is locked
somewhere, `Hidden` that a removal does not get to a lock of the key, and `Jammed` that a put does
not. -/
structure CacheOps.Releases {σ : Type} (B : CacheOps σ) (Locked : σ → Key → Prop)
    (Hidden : Instant → σ → Key → Prop) (Jammed : Instant → Heap → σ → Key → Prop) : Prop where
  size : ∀ {s k} now, Locked (B.size now s).2 k → Locked s k
  put : ∀ {s k} now h j e, Locked (B.put now h j e s).2 k → Locked s k
  put_self : ∀ {s e} now h k, e ≠ .loading → (Locked (B.put now h k e s).2 k ↔ Jammed now h s k)
  get : ∀ {s k} now h j, k ≠ j → Locked (B.get now h j s).2.2 k → Locked s k
  get_error : ∀ {s f} now h k, ¬ Locked s k → (B.get now h k s).1 = .error f → ¬ f.OfLock
  remove : ∀ {s k} now h j, k ≠ j → (Locked (B.remove now h j s).2.2 k ↔ Locked s k)
  remove_self : ∀ {s} now h k, Locked (B.remove now h k s).2.2 k ↔ Hidden now s k
  locked_of_hidden : ∀ {s k} now, Hidden now s k → Locked s k
  clear : ∀ {s k} now, Locked (B.clear now s) k ↔ Locked s k

theorem Store.releases :
    Store.ops.Releases (fun _ _ => False) (fun _ _ _ => False) (fun _ _ _ _ => False) where
  size _ hs := hs
  put _ _ _ _ hs := hs
  put_self _ _ _ _ := Iff.rfl
  get _ _ _ _ hs := hs
  get_error {s f} now h k _ hf := by
    change s.get k = .error f at hf
    rw [Store.get] at hf
    split at hf
    · cases hf
      exact not_false
    · cases hf
  remove _ _ _ _ := Iff.rfl
  remove_self _ _ _ := Iff.rfl
  locked_of_hidden _ hs := hs
  clear _ := Iff.rfl

/-- The put of a key ends where the oldest key should leave and fails to, or it does not get through
what is below. -/
def Arrival.Jammed {σ : Type} (B : CacheOps σ) (Locked : σ → Key → Prop)
    (Jams : Instant → Heap → σ → Key → Prop) (now : Instant) (h : Heap) (s : Arrival × σ) (k : Key) :
    Prop :=
  match s.1.push k with
  | (none, _) => Jams now h s.2 k
  | (some oldest, _) =>
    match B.remove now h oldest s.2 with
    | (.error _, _, under) => Locked under k
    | (.ok _, _, under) => Jams (now + 1) h under k

section Layers

variable {σ : Type} {B : CacheOps σ} {Locked : σ → Key → Prop} {Hidden : Instant → σ → Key → Prop}
  {Jammed : Instant → Heap → σ → Key → Prop}

/-- A removal locks nothing. -/
theorem CacheOps.Releases.locked_of_remove (hB : B.Releases Locked Hidden Jammed) {s : σ} {k : Key}
    {now : Instant} {h : Heap} {j : Key} (hs : Locked (B.remove now h j s).2.2 k) : Locked s k := by
  by_cases hk : k = j
  · subst hk
    exact hB.locked_of_hidden now ((hB.remove_self now h k).1 hs)
  · exact (hB.remove now h j hk).1 hs

/-- Calls that do not read a key do not lock it. -/
theorem CacheOps.Releases.not_locked_after (hB : B.Releases Locked Hidden Jammed) {s : σ} {k : Key}
    (hs : ¬ Locked s k) {later : List CacheCall} (hlater : ∀ c ∈ later, ¬ c.Reads k) :
    ¬ Locked (CacheCall.after B s later) k := by
  induction later with
  | nil => exact hs
  | cons c later ih =>
    have hafter := ih fun d hd => hlater d (List.mem_cons_of_mem _ hd)
    have hc := hlater c List.mem_cons_self
    cases c with
    | put now h j e => exact mt (hB.put now h j e) hafter
    | get now h j => exact mt (hB.get now h j (Ne.symm hc)) hafter
    | remove now h j => exact mt hB.locked_of_remove hafter
    | clear now => exact mt (hB.clear now).1 hafter
    | size now => exact mt (hB.size now) hafter

theorem Recency.ne_of_push {r : Recency} {k eldest : Key} (he : (r.push k).1 = some eldest) :
    k ≠ eldest := by
  rintro rfl
  rw [push] at he
  split at he
  · cases he
  · rename_i hk
    split at he
    · cases he
    · exact hk (List.mem_of_getLast? he)

/-- The key that falls out of the index is not the one that was put, whose lock is back before. -/
theorem Recency.releases (hB : B.Releases Locked Hidden Jammed) :
    (Recency.ops B).Releases (fun s => Locked s.2) (fun now s => Hidden now s.2)
      (fun now h s => Jammed now h s.2) where
  size now hs := hB.size now hs
  put {s k} now h j e hs := by
    have hput := fun hs => hB.put (s := s.2) (k := k) now h j e hs
    change Locked (Recency.put B now h j e s).2.2 k at hs
    rw [Recency.put] at hs
    generalize B.put now h j e s.2 = r at hput hs
    rcases r with ⟨_ | ⟨⟩, under⟩
    · exact hput hs
    · dsimp only at hs
      generalize s.1.push j = p at hs
      rcases p with ⟨_ | eldest, r⟩
      · exact hput hs
      · exact hput (hB.locked_of_remove hs)
  put_self {s e} now h k he := by
    have hput := hB.put_self (s := s.2) now h k he
    change Locked (Recency.put B now h k e s).2.2 k ↔ _
    rw [Recency.put]
    generalize B.put now h k e s.2 = r at hput ⊢
    rcases r with ⟨_ | ⟨⟩, under⟩
    · exact hput
    · dsimp only
      rcases hp : s.1.push k with ⟨_ | eldest, r⟩
      · exact hput
      · have hne : k ≠ eldest := Recency.ne_of_push (by rw [hp])
        exact (hB.remove (now + 1) h eldest hne).trans hput
  get now h j hk hs := hB.get now h j hk hs
  get_error now h k hs hf := hB.get_error now h k hs hf
  remove now h j hk := hB.remove now h j hk
  remove_self now h k := hB.remove_self now h k
  locked_of_hidden now hs := hB.locked_of_hidden now hs
  clear now := hB.clear now

theorem Arrival.releases (hB : B.Releases Locked Hidden Jammed) :
    (Arrival.ops B).Releases (fun s => Locked s.2) (fun now s => Hidden now s.2)
      (Arrival.Jammed B Locked Jammed) where
  size now hs := hB.size now hs
  put {s k} now h j e hs := by
    change Locked (Arrival.put B now h j e s).2.2 k at hs
    rw [Arrival.put] at hs
    generalize s.1.push j = p at hs
    rcases p with ⟨_ | oldest, a⟩
    · exact hB.put now h j e hs
    · have hremove : Locked (B.remove now h oldest s.2).2.2 k → Locked s.2 k := hB.locked_of_remove
      dsimp only at hs
      generalize B.remove now h oldest s.2 = r at hremove hs
      rcases r with ⟨_ | _, h', under⟩
      · exact hremove hs
      · exact hremove (hB.put (now + 1) h j e hs)
  put_self {s e} now h k he := by
    change Locked (Arrival.put B now h k e s).2.2 k ↔ _
    rw [Arrival.put, Arrival.Jammed]
    rcases s.1.push k with ⟨_ | oldest, a⟩
    · exact hB.put_self now h k he
    · dsimp only
      rcases B.remove now h oldest s.2 with ⟨_ | _, h', under⟩
      · exact Iff.rfl
      · exact hB.put_self (now + 1) h k he
  get now h j hk hs := hB.get now h j hk hs
  get_error now h k hs hf := hB.get_error now h k hs hf
  remove now h j hk := hB.remove now h j hk
  remove_self now h k := hB.remove_self now h k
  locked_of_hidden now hs := hB.locked_of_hidden now hs
  clear now := hB.clear now

/-- A put gets through if every removal below returns and what is below lets it through then. -/
theorem Arrival.not_jammed {now : Instant} {h : Heap} {s : Arrival × σ} {k : Key}
    (hremove : ∀ oldest, ∃ x, (B.remove now h oldest s.2).1 = .ok x)
    (hbelow : ¬ Jammed now h s.2 k)
    (hremoved : ∀ oldest, ¬ Jammed (now + 1) h (B.remove now h oldest s.2).2.2 k) :
    ¬ Arrival.Jammed B Locked Jammed now h s k := by
  rw [Arrival.Jammed]
  rcases s.1.push k with ⟨_ | oldest, a⟩
  · exact hbelow
  · obtain ⟨x, hx⟩ := hremove oldest
    have hremoved := hremoved oldest
    dsimp only
    generalize B.remove now h oldest s.2 = r at hx hremoved
    obtain ⟨_, h', under⟩ := r
    subst hx
    exact hremoved

/-- Clearing below leaves the locks alone. -/
theorem Expiry.locked_refreshed (hB : B.Releases Locked Hidden Jammed) {s : Expiry × σ} {k : Key}
    (now : Instant) :
    Locked (if s.1.stale now then Expiry.clear B now s else s).2 k ↔ Locked s.2 k := by
  split
  · exact hB.clear now
  · exact Iff.rfl

theorem Expiry.releases (hB : B.Releases Locked Hidden Jammed) :
    (Expiry.ops B).Releases (fun s => Locked s.2)
      (fun now s k => if s.1.stale now then Locked s.2 k else Hidden now s.2 k)
      (fun now h s => Jammed now h (if s.1.stale now then Expiry.clear B now s else s).2) where
  size now hs := (Expiry.locked_refreshed hB now).1 (hB.size now hs)
  put now h j e hs := (Expiry.locked_refreshed hB now).1 (hB.put now h j e hs)
  put_self now h k he := hB.put_self now h k he
  get {s k} now h j hk hs := by
    change Locked (Expiry.get B now h j s).2.2.2 k at hs
    rw [Expiry.get] at hs
    split at hs
    · exact (hB.clear now).1 hs
    · exact hB.get now h j hk hs
  get_error {s f} now h k hs hf := by
    change (Expiry.get B now h k s).1 = .error f at hf
    rw [Expiry.get] at hf
    split at hf
    · cases hf
    · exact hB.get_error now h k hs hf
  remove {s k} now h j hk := by
    change Locked (Expiry.remove B now h j s).2.2.2 k ↔ _
    rw [Expiry.remove]
    split
    · exact hB.clear now
    · exact hB.remove now h j hk
  remove_self {s} now h k := by
    change Locked (Expiry.remove B now h k s).2.2.2 k ↔ _
    rw [Expiry.remove]
    split
    · exact hB.clear now
    · exact hB.remove_self now h k
  locked_of_hidden {s k} now hs := by
    split at hs
    · exact hs
    · exact hB.locked_of_hidden now hs
  clear now := hB.clear now

theorem Gate.releases (hB : B.Releases Locked Hidden Jammed) :
    (Gate.ops B).Releases (fun s k => k ∈ s.1.held ∨ Locked s.2 k) (fun now s => Hidden now s.2)
      (fun now h s => Jammed now h s.2) where
  size now hs := hs.imp_right (hB.size now)
  put {s k} now h j e hs := by
    rcases hs with hs | hs
    · exact .inl ((mem_held_unlock s.1 j k).1 hs).1
    · exact .inr (hB.put now h j e hs)
  put_self {s e} now h k he := by
    have hfree : k ∉ (s.1.unlock k).held := by simp
    exact (or_iff_right hfree).trans (hB.put_self now h k he)
  get {s k} now h j hk hs := by
    have hget := fun hs => hB.get (s := s.2) now h j hk hs
    change k ∈ (Gate.get B now h j s).2.2.1.held ∨ Locked (Gate.get B now h j s).2.2.2 k at hs
    rw [Gate.get] at hs
    split at hs
    · exact hs
    · generalize B.get now h j s.2 = r at hget hs
      rcases r with ⟨_ | _ | _, h', under⟩
      · exact hs.imp_right hget
      · rcases hs with hs | hs
        · exact .inl (((mem_held_lock s.1 j k).1 hs).resolve_left hk)
        · exact .inr (hget hs)
      · exact hs.imp_right hget
  get_error {s f} now h k hs hf := by
    rw [not_or] at hs
    have herror := fun hf => hB.get_error (s := s.2) (f := f) now h k hs.2 hf
    change (Gate.get B now h k s).1 = .error f at hf
    rw [Gate.get, if_neg hs.1] at hf
    generalize B.get now h k s.2 = r at herror hf
    rcases r with ⟨_ | _ | _, h', under⟩
    · exact herror hf
    · cases hf
    · cases hf
  remove {s k} now h j hk := by
    have hheld : k ∈ (s.1.unlock j).held ↔ k ∈ s.1.held := by simp [hk]
    exact or_congr hheld (hB.remove now h j hk)
  remove_self {s} now h k := by
    have hfree : k ∉ (s.1.unlock k).held := by simp
    exact (or_iff_right hfree).trans (hB.remove_self now h k)
  locked_of_hidden now hs := .inr (hB.locked_of_hidden now hs)
  clear now := or_congr_right (hB.clear now)

theorem Copying.releases (hB : B.Releases Locked Hidden Jammed) :
    (Copying.ops B).Releases (fun s => Locked s.2) (fun now s => Hidden now s.2)
      (fun now h s => Jammed now h s.2) where
  size now hs := hB.size now hs
  put {s k} now h j e hs := by
    change Locked (Copying.put B now h j e s).2.2 k at hs
    rw [Copying.put] at hs
    split at hs
    · exact hB.put now h j _ hs
    · exact hs
  put_self {s e} now h k he := by
    change Locked (Copying.put B now h k e s).2.2 k ↔ _
    obtain ⟨e', hstored, he'⟩ : ∃ e', stored (B.id s.2) h e = .ok e' ∧ e' ≠ .loading := by
      cases e with
      | loading => exact absurd rfl he
      | _ => exact ⟨_, rfl, by simp⟩
    rw [Copying.put, hstored]
    exact hB.put_self now h k he'
  get {s k} now h j hk hs := by
    have hget := fun hs => hB.get (s := s.2) now h j hk hs
    change Locked (restoreBelow _ (B.get now h j s.2)).2.2.2 k at hs
    generalize B.get now h j s.2 = r at hget hs
    rcases r with ⟨_ | _, h', under⟩ <;> exact hget hs
  get_error {s f} now h k hs hf := by
    have herror := fun f hf => hB.get_error (s := s.2) (f := f) now h k hs hf
    change (restoreBelow _ (B.get now h k s.2)).1 = .error f at hf
    generalize B.get now h k s.2 = r at herror hf
    rcases r with ⟨g | e, h', under⟩
    · exact herror f hf
    · change (restored _ h' e).1 = .error f at hf
      rw [restored.eq_def] at hf
      split at hf
      · split at hf
        · cases hf
        · cases hf
          exact not_false
      · cases hf
  remove {s k} now h j hk := by
    have hremove := hB.remove (s := s.2) now h j hk
    change Locked (restoreBelow _ (B.remove now h j s.2)).2.2.2 k ↔ _
    generalize B.remove now h j s.2 = r at hremove ⊢
    rcases r with ⟨_ | _, h', under⟩ <;> exact hremove
  remove_self {s} now h k := by
    have hremove := hB.remove_self (s := s.2) now h k
    change Locked (restoreBelow _ (B.remove now h k s.2)).2.2.2 k ↔ _
    generalize B.remove now h k s.2 = r at hremove ⊢
    rcases r with ⟨_ | _, h', under⟩ <;> exact hremove
  locked_of_hidden now hs := hB.locked_of_hidden now hs
  clear now := hB.clear now

theorem Exclusive.releases (hB : B.Releases Locked Hidden Jammed) :
    (Exclusive.ops B).Releases (fun s => Locked s.2) (fun now s => Hidden now s.2)
      (fun now h s => Jammed now h s.2) where
  size now hs := hB.size now hs
  put now h j e hs := hB.put now h j e hs
  put_self now h k he := hB.put_self now h k he
  get now h j hk hs := hB.get now h j hk hs
  get_error now h k hs hf := hB.get_error now h k hs hf
  remove now h j hk := hB.remove now h j hk
  remove_self now h k := hB.remove_self now h k
  locked_of_hidden now hs := hB.locked_of_hidden now hs
  clear now := hB.clear now

theorem Counting.releases (hB : B.Releases Locked Hidden Jammed) :
    (Counting.ops B).Releases (fun s => Locked s.2) (fun now s => Hidden now s.2)
      (fun now h s => Jammed now h s.2) where
  size now hs := hB.size now hs
  put now h j e hs := hB.put now h j e hs
  put_self now h k he := hB.put_self now h k he
  get {s k} now h j hk hs := by
    have hget := fun hs => hB.get (s := s.2) now h j hk hs
    change Locked (Counting.get B now h j s).2.2.2 k at hs
    rw [Counting.get] at hs
    generalize B.get now h j s.2 = r at hget hs
    rcases r with ⟨_ | _, h', under⟩ <;> exact hget hs
  get_error {s f} now h k hs hf := by
    have herror := fun hf => hB.get_error (s := s.2) (f := f) now h k hs hf
    change (Counting.get B now h k s).1 = .error f at hf
    rw [Counting.get] at hf
    generalize B.get now h k s.2 = r at herror hf
    rcases r with ⟨_ | _, h', under⟩
    · exact herror hf
    · cases hf
  remove now h j hk := hB.remove now h j hk
  remove_self now h k := hB.remove_self now h k
  locked_of_hidden now hs := hB.locked_of_hidden now hs
  clear now := hB.clear now

end Layers

namespace Stack

/-- Some layer holds the key locked. -/
def Locked : {ls : List Layer} → Stack ls → Key → Prop
  | [], _, _ => False
  | .gate :: _, s, k => k ∈ s.1.held ∨ Locked s.2 k
  | _ :: _, s, k => Locked s.2 k

/-- The key is locked below a layer whose time is up. -/
def Hidden : {ls : List Layer} → Instant → Stack ls → Key → Prop
  | [], _, _, _ => False
  | .expiry :: _, now, s, k => if s.1.stale now then Locked s.2 k else Hidden now s.2 k
  | _ :: _, now, s, k => Hidden now s.2 k

/-- The key is locked below a layer of arrivals that fails to make room for it. -/
def Jammed : {ls : List Layer} → Instant → Heap → Stack ls → Key → Prop
  | [], _, _, _, _ => False
  | .arrival :: ls, now, h, s, k => Arrival.Jammed (stackOps ls) Locked Jammed now h s k
  | .expiry :: ls, now, h, s, k =>
    Jammed now h (if s.1.stale now then Expiry.clear (stackOps ls) now s else s).2 k
  | _ :: _, now, h, s, k => Jammed now h s.2 k

theorem releases (ls : List Layer) :
    (stackOps ls).Releases Locked Hidden Jammed := by
  induction ls with
  | nil => exact Store.releases
  | cons l ls ih =>
    cases l with
    | recency => exact Recency.releases ih
    | arrival => exact Arrival.releases ih
    | expiry => exact Expiry.releases ih
    | gate => exact Gate.releases ih
    | copying => exact Copying.releases ih
    | exclusive => exact Exclusive.releases ih
    | counting => exact Counting.releases ih

/-- Only a layer whose time is up hides a lock. -/
theorem expiry_of_hidden {ls : List Layer} {now : Instant} {s : Stack ls} {k : Key}
    (hs : s.Hidden now k) : .expiry ∈ ls := by
  induction ls with
  | nil => exact hs.elim
  | cons l ls ih =>
    cases l with
    | expiry => exact List.mem_cons_self
    | _ => exact List.mem_cons_of_mem _ (ih (s := s.2) hs)

instance decidableLocked : {ls : List Layer} → (s : Stack ls) → (k : Key) → Decidable (Locked s k)
  | [], _, _ => inferInstanceAs (Decidable False)
  | .gate :: _, s, k =>
    have := decidableLocked s.2 k
    inferInstanceAs (Decidable (k ∈ s.1.held ∨ Locked s.2 k))
  | .recency :: _, s, k | .arrival :: _, s, k | .expiry :: _, s, k | .copying :: _, s, k
  | .exclusive :: _, s, k | .counting :: _, s, k => decidableLocked s.2 k

/-- If only legible entries were put, room is made for every key. -/
theorem Kept.not_jammed {ls : List Layer} {s₀ s : Stack ls} (hs : Kept true s₀ s) (now : Instant)
    (h : Heap) (k : Key) : ¬ s.Jammed now h k := by
  induction ls generalizing now with
  | nil => exact not_false
  | cons l ls ih =>
    cases l with
    | recency => exact ih hs.1 now
    | arrival =>
      have hbelow : Kept true s₀.2 s.2 := hs.1
      exact Arrival.not_jammed (fun oldest => (tidy true s₀.2).remove_ok now h oldest rfl hbelow)
        (ih hbelow now) fun oldest => ih ((tidy true s₀.2).remove now h oldest hbelow) (now + 1)
    | expiry =>
      have hbelow : Kept true s₀.2 s.2 := hs
      obtain ⟨e, under⟩ := s
      change ¬ Jammed now h (if e.stale now then Expiry.clear (stackOps ls) now (e, under)
        else (e, under)).2 k
      split
      · exact ih ((tidy true s₀.2).clear now hbelow) now
      · exact ih hbelow now
    | gate => exact ih (s := s.2) hs now
    | copying => exact ih (s := s.2) hs now
    | exclusive => exact ih (s := s.2) hs now
    | counting => exact ih (s := s.2) hs now

end Stack

namespace Cache

/-- Some layer holds the key locked. -/
def Locked (c : Cache) (k : Key) : Prop := c.state.Locked k

/-- The key is locked below a layer whose time is up. -/
def Hidden (now : Instant) (c : Cache) (k : Key) : Prop := c.state.Hidden now k

/-- The key is locked below a layer of arrivals that fails to make room for it. -/
def Jammed (now : Instant) (h : Heap) (c : Cache) (k : Key) : Prop := c.state.Jammed now h k

instance (c : Cache) (k : Key) : Decidable (c.Locked k) := Stack.decidableLocked c.state k

/-- After a removal of a key that was called in any way, the key is still locked exactly if the
removal could not get to the lock, and after a put exactly if the put could not, which takes an entry
that is not legible. A key that is not locked is read without waiting, until it was read again. -/
theorem locked_after_release {now : Instant} {r : Registry} {id : String} {config : Config}
    {c : Cache} (hr : r.Plain) (hc : build now r id config = .ok c) (past : List CacheCall) :
    let d := CacheCall.after ops c past
    (∀ now h k, (ops.remove now h k d).2.2.Locked k ↔ d.Hidden now k) ∧
    (∀ now h k e, e ≠ .loading → ((ops.put now h k e d).2.Locked k ↔ d.Jammed now h k)) ∧
    (∀ now k, d.Hidden now k → d.Locked k ∧ .expiry ∈ d.layers) ∧
    ((∀ call ∈ past, call.Legible) → ∀ now h k, ¬ d.Jammed now h k) ∧
    ∀ (d' : Cache) (k : Key), ¬ d'.Locked k → ∀ later : List CacheCall,
      (∀ call ∈ later, ¬ call.Reads k) → ∀ now h f,
        (ops.get now h k (CacheCall.after ops d' later)).1 = .error f → ¬ f.OfLock := by
  intro d
  have hd : d = ⟨c.layers, CacheCall.after (stackOps c.layers) c.state past⟩ :=
    after_ops c.layers c.state past
  have hB := Stack.releases c.layers
  rw [hd]
  refine ⟨fun now h k => hB.remove_self now h k, fun now h k e he => hB.put_self now h k he,
    fun now k hk => ⟨hB.locked_of_hidden now hk, Stack.expiry_of_hidden hk⟩, ?_, ?_⟩
  · intro hpast now h k
    have hkept : Stack.Kept true c.state (CacheCall.after (stackOps c.layers) c.state past) :=
      Stack.kept_after (build_store hr hc) (built hc).unused fun _ => hpast
    exact hkept.not_jammed now h k
  · intro d' k hk later hlater now h f hf
    have hB' := Stack.releases d'.layers
    have hfree := hB'.not_locked_after (s := d'.state) hk hlater
    rw [after_ops d'.layers d'.state later] at hf
    exact hB'.get_error now h k hfree hf

/-- A locking layer below one that is cleared every millisecond. -/
def clearedOften : Config :=
  { Config.standard with layers := ["BLOCKING"], clearInterval := some 1 }

/-- The key that was read is locked, and a put unlocks it whether or not the time is up. -/
theorem locked_after_release_clearedOften :
    let past : List CacheCall := [.get 0 .empty (numberedKey 1)]
    Registry.standard.Plain ∧ ∃ c, build 0 .standard "b" clearedOften = .ok c ∧
      (CacheCall.after ops c past).Locked (numberedKey 1) ∧
      ∀ now h, ¬ (ops.put now h (numberedKey 1) .absence (CacheCall.after ops c past)).2.Locked
        (numberedKey 1) := by
  intro past
  obtain ⟨c, hc, hlocked⟩ := exists_built (x := build 0 .standard "b" clearedOften)
    (f := fun c => decide ((CacheCall.after ops c past).Locked (numberedKey 1))) (a := true) rfl
  obtain ⟨-, hput, -, hlegible, -⟩ := locked_after_release Registry.standard_plain hc past
  have hpast : ∀ call ∈ past, call.Legible := by
    intro call hcall
    rw [List.mem_singleton.1 hcall]
    trivial
  exact ⟨Registry.standard_plain, c, hc, of_decide_eq_true hlocked,
    fun now h => mt (hput now h (numberedKey 1) .absence nofun).1 (hlegible hpast now h _)⟩

/-- A locking layer below one that keeps one arrival and gets copies. -/
def latestCopied : Config :=
  { Config.standard with layers := ["BLOCKING", "SERIALIZED", "FIFO"], size := some 1 }

/-- A call of a cache that was built from the configuration leaves no lock of its key. -/
def Config.Unlocks (config : Config) (act : Instant → Heap → Key → Cache → Cache) : Prop :=
  ∀ (now : Instant) (id : String) (c : Cache), build now .standard id config = .ok c →
    ∀ past now h k, ¬ (act now h k (CacheCall.after ops c past)).Locked k

/-- A removal after the time is up clears the cache and leaves the lock of a read that found nothing;
a put leaves it if the key that has to make room for it has bytes that mean nothing. -/
theorem release_leaves_locks :
    (¬ ∀ config : Config, config.Unlocks fun now h k c => (ops.remove now h k c).2.2) ∧
      ¬ ∀ config : Config, config.Unlocks fun now h k c => (ops.put now h k .absence c).2 := by
  constructor
  · intro hunlocks
    obtain ⟨c, hc, hlocked⟩ := exists_built (x := build 0 .standard "b" clearedOften)
      (f := fun c => decide ((ops.remove 2000000 .empty (numberedKey 1)
        (CacheCall.after ops c [.get 0 .empty (numberedKey 1)])).2.2.Locked (numberedKey 1)))
      (a := true) rfl
    exact hunlocks clearedOften 0 "b" c hc _ _ _ _ (of_decide_eq_true hlocked)
  · intro hunlocks
    obtain ⟨c, hc, hlocked⟩ := exists_built (x := build 0 .standard "b" latestCopied)
      (f := fun c => decide ((ops.put 2 .empty (numberedKey 2) .absence
        (CacheCall.after ops c [.get 1 .empty (numberedKey 2),
          .put 0 .empty (numberedKey 1) (.encoded [0xff])])).2.Locked (numberedKey 2)))
      (a := true) rfl
    exact hunlocks latestCopied 0 "b" c hc _ _ _ _ (of_decide_eq_true hlocked)

end Cache

end ResultCache
