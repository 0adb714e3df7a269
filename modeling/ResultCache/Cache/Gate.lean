import ResultCache.Cache.Basic

/-!
# Letting one caller compute a missing entry

The layer locks keys. A read takes the lock of its key and gives it back, unless it finds nothing:
then the lock stays, for the caller is expected to compute the entry, until the key is put or
removed. Whether the call below succeeds makes no difference to that. A read of a locked key waits;
in a run of one call after the other nobody can unlock the key meanwhile, so the wait ends with its
timeout or never.

Main facts: `mem_held_get` and `not_mem_held_put`, `not_mem_held_remove`.
-/
namespace ResultCache

structure Gate where
  /-- how long a read waits, in milliseconds; none if it waits as long as it takes -/
  timeout : Option Nat
  /-- the locked keys -/
  held : List Key
  deriving Inhabited

namespace Gate

def ofTimeout (timeout : Option Nat) : Gate := ⟨timeout, []⟩

def lock (g : Gate) (k : Key) : Gate := { g with held := k :: g.held }

def unlock (g : Gate) (k : Key) : Gate := { g with held := g.held.filter (· ≠ k) }

@[simp] theorem mem_held_lock (g : Gate) (k j : Key) :
    j ∈ (g.lock k).held ↔ j = k ∨ j ∈ g.held := by
  simp [lock]

@[simp] theorem mem_held_unlock (g : Gate) (k j : Key) :
    j ∈ (g.unlock k).held ↔ j ∈ g.held ∧ j ≠ k := by
  simp [unlock]

/-- How a wait for a locked key ends. -/
def waitFault (g : Gate) (k : Key) (cache : String) : Fault :=
  match g.timeout with
  | some ms => .lockTimeout k.text cache ms
  | none => .endlessWait k.text cache

variable {σ : Type} (B : CacheOps σ)

def put (now : Instant) (h : Heap) (k : Key) (e : Entry) (s : Gate × σ) :
    Result Unit × Gate × σ :=
  below (s.1.unlock k) (B.put now h k e s.2)

def get (now : Instant) (h : Heap) (k : Key) (s : Gate × σ) :
    Result (Option Entry) × Heap × Gate × σ :=
  if k ∈ s.1.held then (.error (s.1.waitFault k (B.id s.2)), h, s)
  else
    match B.get now h k s.2 with
    | (.ok none, h, under) => (.ok none, h, s.1.lock k, under)
    | (res, h, under) => (res, h, s.1, under)

def remove (now : Instant) (h : Heap) (k : Key) (s : Gate × σ) :
    Result (Option Entry) × Heap × Gate × σ :=
  let (res, h, under) := B.remove now h k s.2
  (res, h, s.1.unlock k, under)

def ops : CacheOps (Gate × σ) where
  id s := B.id s.2
  size now s := below s.1 (B.size now s.2)
  put := put B
  get := get B
  remove := remove B
  clear now s := (s.1, B.clear now s.2)
  configure name value s :=
    if name = "timeout" then do
      let n ← settingNumber (B.id s.2) name value
      .ok (true, { s.1 with timeout := some n }, s.2)
    else configureBelow s.1 (B.configure name value s.2)
  stats s := B.stats s.2
  resetStats s := (s.1, B.resetStats s.2)

/-- A key is locked after a read of it that returns exactly if the read found nothing. -/
theorem mem_held_get {now : Instant} {h : Heap} {k : Key} {s : Gate × σ} (hk : k ∉ s.1.held) :
    k ∈ (get B now h k s).2.2.1.held ↔ (get B now h k s).1 = .ok none := by
  rw [get, if_neg hk]
  rcases B.get now h k s.2 with ⟨_ | _ | _, h', under⟩ <;> simp [hk]

theorem not_mem_held_put (now : Instant) (h : Heap) (k : Key) (e : Entry) (s : Gate × σ) :
    k ∉ (put B now h k e s).2.1.held := by
  simp [put, below]

theorem not_mem_held_remove (now : Instant) (h : Heap) (k : Key) (s : Gate × σ) :
    k ∉ (remove B now h k s).2.2.1.held := by
  simp [remove]

end Gate
end ResultCache
