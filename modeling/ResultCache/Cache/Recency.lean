import ResultCache.Cache.Basic

/-!
# Keeping the most recently used keys

The layer keeps an index of keys, the most recently used first, and bounds the cache below by the
index: a key that falls out of a full index is removed below. The index only follows what goes
through the layer; whether an entry is there is for the cache below to say, so reading a key that
the index lacks is no miss by itself, and removing an entry leaves its key in the index.
-/
namespace ResultCache

structure Recency where
  capacity : Nat
  /-- the most recently used key first -/
  index : List Key
  capacity_pos : 0 < capacity

namespace Recency

/-- An empty index. -/
def ofCapacity (n : Nat) (h : 0 < n) : Recency := ⟨n, [], h⟩

def initial : Recency := ofCapacity 1024 (by decide)

instance : Inhabited Recency := ⟨initial⟩

/-- Moves a key of the index to the front; a key that is not there stays away. -/
def touch (r : Recency) (k : Key) : Recency :=
  if k ∈ r.index then { r with index := k :: r.index.filter (· ≠ k) } else r

/-- Puts a key at the front of the index. From a full index the last key falls out. -/
def push (r : Recency) (k : Key) : Option Key × Recency :=
  if k ∈ r.index then (none, r.touch k)
  else if r.index.length < r.capacity then (none, { r with index := k :: r.index })
  else (r.index.getLast?, { r with index := k :: r.index.dropLast })

def forget (r : Recency) : Recency := { r with index := [] }

/-- An index of another size, empty. -/
def resized (cache : String) (n : Nat) : Result Recency :=
  if h : 0 < n then .ok (ofCapacity n h) else .error (.configuration (.noRoom cache))

variable {σ : Type} (B : CacheOps σ)

/-- Stores the entry below first, then makes room. -/
def put (now : Instant) (h : Heap) (k : Key) (e : Entry) (s : Recency × σ) :
    Result Unit × Recency × σ :=
  match B.put now h k e s.2 with
  | (.error f, under) => (.error f, s.1, under)
  | (.ok (), under) =>
    match s.1.push k with
    | (none, r) => (.ok (), r, under)
    | (some eldest, r) =>
      let (res, _, under) := B.remove (now + 1) h eldest under
      (res.map fun _ => (), r, under)

def ops : CacheOps (Recency × σ) where
  id s := B.id s.2
  size now s := below s.1 (B.size now s.2)
  put := put B
  get now h k s :=
    let (res, h, under) := B.get now h k s.2
    (res, h, s.1.touch k, under)
  remove now h k s :=
    let (res, h, under) := B.remove now h k s.2
    (res, h, s.1, under)
  clear now s := (s.1.forget, B.clear now s.2)
  configure name value s :=
    if name = "size" then do
      let n ← settingNumber (B.id s.2) name value
      let r ← resized (B.id s.2) n
      .ok (true, r, s.2)
    else configureBelow s.1 (B.configure name value s.2)
  stats s := B.stats s.2
  resetStats s := (s.1, B.resetStats s.2)

end Recency
end ResultCache
