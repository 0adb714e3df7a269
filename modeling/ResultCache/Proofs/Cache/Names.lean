import ResultCache.Proofs.Cache.Faithful

/-!
# Caches keep their names

What every operation of a cache leaves true of its state (`CacheOps.Keeps`) stays true below any
layer, so it is enough to look at the store: no operation changes its name, and so none changes the
name of a cache (`Cache.keeps_id`).
-/
namespace ResultCache

/-- Every operation leaves a property of the state true. -/
structure CacheOps.Keeps {σ : Type} (B : CacheOps σ) (P : σ → Prop) : Prop where
  size : ∀ {s} now, P s → P (B.size now s).2
  put : ∀ {s} now h k e, P s → P (B.put now h k e s).2
  get : ∀ {s} now h k, P s → P (B.get now h k s).2.2
  remove : ∀ {s} now h k, P s → P (B.remove now h k s).2.2
  clear : ∀ {s} now, P s → P (B.clear now s)

theorem Store.keeps_id (id : String) : Store.ops.Keeps fun s => s.id = id where
  size _ hs := hs
  put {s} now h k e hs := by
    change (s.put k e).2.id = id
    rw [Store.put]
    split <;> exact hs
  get _ _ _ hs := hs
  remove {s} now h k hs := by
    change (s.remove k).2.id = id
    rw [Store.remove]
    split <;> exact hs
  clear _ hs := hs

section Layers

variable {σ : Type} {B : CacheOps σ} {P : σ → Prop}

theorem Recency.keeps (hB : B.Keeps P) : (Recency.ops B).Keeps fun s => P s.2 where
  size now hs := hB.size now hs
  put {s} now h k e hs := by
    have hput := hB.put now h k e hs
    change P (Recency.put B now h k e s).2.2
    rw [Recency.put]
    generalize B.put now h k e s.2 = r at hput ⊢
    rcases r with ⟨_ | ⟨⟩, under⟩
    · exact hput
    · rcases s.1.push k with ⟨_ | eldest, r⟩
      · exact hput
      · exact hB.remove (now + 1) h eldest hput
  get now h k hs := hB.get now h k hs
  remove now h k hs := hB.remove now h k hs
  clear now hs := hB.clear now hs

theorem Arrival.keeps (hB : B.Keeps P) : (Arrival.ops B).Keeps fun s => P s.2 where
  size now hs := hB.size now hs
  put {s} now h k e hs := by
    change P (Arrival.put B now h k e s).2.2
    rw [Arrival.put]
    rcases s.1.push k with ⟨_ | oldest, a⟩
    · exact hB.put now h k e hs
    · have hremove := hB.remove now h oldest hs
      dsimp only
      generalize B.remove now h oldest s.2 = r at hremove ⊢
      rcases r with ⟨_ | _, h', under⟩
      · exact hremove
      · exact hB.put (now + 1) h k e hremove
  get now h k hs := hB.get now h k hs
  remove now h k hs := hB.remove now h k hs
  clear now hs := hB.clear now hs

theorem Expiry.keeps (hB : B.Keeps P) : (Expiry.ops B).Keeps fun s => P s.2 := by
  have hrefresh : ∀ {s : Expiry × σ} (now : Instant), P s.2 →
      P (if s.1.stale now then Expiry.clear B now s else s).2 := by
    intro s now hs
    split
    · exact hB.clear now hs
    · exact hs
  refine ⟨fun now hs => hB.size now (hrefresh now hs),
    fun now h k e hs => hB.put now h k e (hrefresh now hs), fun {s} now h k hs => ?_,
    fun {s} now h k hs => ?_, fun now hs => hB.clear now hs⟩
  · change P (Expiry.get B now h k s).2.2.2
    rw [Expiry.get]
    split
    · exact hB.clear now hs
    · exact hB.get now h k hs
  · change P (Expiry.remove B now h k s).2.2.2
    rw [Expiry.remove]
    split
    · exact hB.clear now hs
    · exact hB.remove now h k hs

theorem Gate.keeps (hB : B.Keeps P) : (Gate.ops B).Keeps fun s => P s.2 where
  size now hs := hB.size now hs
  put now h k e hs := hB.put now h k e hs
  get {s} now h k hs := by
    have hget := hB.get now h k hs
    change P (Gate.get B now h k s).2.2.2
    rw [Gate.get]
    split
    · exact hs
    · generalize B.get now h k s.2 = r at hget ⊢
      rcases r with ⟨_ | _ | _, h', under⟩ <;> exact hget
  remove now h k hs := hB.remove now h k hs
  clear now hs := hB.clear now hs

theorem Copying.keeps (hB : B.Keeps P) : (Copying.ops B).Keeps fun s => P s.2 := by
  have hrestore : ∀ (cache : String) (r : Result (Option Entry) × Heap × σ), P r.2.2 →
      P (Copying.restoreBelow cache r).2.2.2 := by
    intro cache r hr
    rwa [Copying.snd_restoreBelow]
  refine ⟨fun now hs => hB.size now hs, fun {s} now h k e hs => ?_,
    fun now h k hs => hrestore _ _ (hB.get now h k hs),
    fun now h k hs => hrestore _ _ (hB.remove now h k hs), fun now hs => hB.clear now hs⟩
  change P (Copying.put B now h k e s).2.2
  rw [Copying.put]
  split
  · exact hB.put now h k _ hs
  · exact hs

theorem Exclusive.keeps (hB : B.Keeps P) : (Exclusive.ops B).Keeps fun s => P s.2 where
  size now hs := hB.size now hs
  put now h k e hs := hB.put now h k e hs
  get now h k hs := hB.get now h k hs
  remove now h k hs := hB.remove now h k hs
  clear now hs := hB.clear now hs

theorem Counting.keeps (hB : B.Keeps P) : (Counting.ops B).Keeps fun s => P s.2 where
  size now hs := hB.size now hs
  put now h k e hs := hB.put now h k e hs
  get {s} now h k hs := by
    have hget := hB.get now h k hs
    change P (Counting.get B now h k s).2.2.2
    rw [Counting.get]
    generalize B.get now h k s.2 = r at hget ⊢
    rcases r with ⟨_ | _, h', under⟩ <;> exact hget
  remove now h k hs := hB.remove now h k hs
  clear now hs := hB.clear now hs

end Layers

theorem keeps_stackOps_id (id : String) (ls : List Layer) :
    (stackOps ls).Keeps fun s => s.store.id = id := by
  induction ls with
  | nil => exact Store.keeps_id id
  | cons l ls ih =>
    cases l with
    | recency => exact Recency.keeps ih
    | arrival => exact Arrival.keeps ih
    | expiry => exact Expiry.keeps ih
    | gate => exact Gate.keeps ih
    | copying => exact Copying.keeps ih
    | exclusive => exact Exclusive.keeps ih
    | counting => exact Counting.keeps ih

/-- No operation of a cache changes its name. -/
theorem Cache.keeps_id (id : String) : Cache.ops.Keeps fun c => c.id = id := by
  have hid : ∀ c : Cache, c.id = c.state.store.id := fun c => stackOps_id c.state
  simp only [hid]
  refine ⟨fun {c} => ?_, fun {c} => ?_, fun {c} => ?_, fun {c} => ?_, fun {c} => ?_⟩
  · exact (keeps_stackOps_id id c.layers).size
  · exact (keeps_stackOps_id id c.layers).put
  · exact (keeps_stackOps_id id c.layers).get
  · exact (keeps_stackOps_id id c.layers).remove
  · exact (keeps_stackOps_id id c.layers).clear

end ResultCache
