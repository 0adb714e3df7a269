import ResultCache.Cache.Basic

/-!
# Buffers

A buffer stands between one unit of work and one shared cache. What the unit of work puts stays in
the buffer until it commits, and so does its wish to clear the cache. The buffer remembers the keys
that a read did not find: a commit stores their absence, a rollback removes them, which also unlocks
them where the cache locks keys that were not found.

Everything here holds over any cache, given by its operations `B`.
-/
namespace ResultCache

structure Buffer where
  /-- the cache is to be cleared first when the unit of work commits -/
  clearing : Bool
  /-- the entries to store when it commits -/
  pending : Entries
  /-- the keys that were read and not found -/
  missed : List Key

namespace Buffer

def empty : Buffer := ⟨false, .empty, []⟩

instance : Inhabited Buffer := ⟨empty⟩

/-- Whether a commit or a rollback has anything to do. -/
def isPending (b : Buffer) : Bool := b.clearing || b.pending.size != 0 || b.missed != []

def put (b : Buffer) (k : Key) (e : Entry) : Buffer := { b with pending := b.pending.insert k e }

/-- Drops what was put and hides what the cache holds. The missed keys stay missed. -/
def clear (b : Buffer) : Buffer := { b with clearing := true, pending := .empty }

/-- Remembers that a key was not found. -/
def miss (b : Buffer) (k : Key) : Buffer :=
  if k ∈ b.missed then b else { b with missed := k :: b.missed }

/-- A buffer that holds the same in another order. -/
structure Reordered (b b' : Buffer) : Prop where
  clearing : b'.clearing = b.clearing
  pending : b.pending.entries.Perm b'.pending.entries
  missed : b.missed.Perm b'.missed

theorem Reordered.refl (b : Buffer) : b.Reordered b := ⟨rfl, .refl _, .refl _⟩

/-- The entries a commit stores: what was put, and the absence of every other missed key. -/
def writes (b : Buffer) : List (Key × Entry) :=
  b.pending.entries ++
    ((b.missed.filter fun k => !b.pending.contains k).map fun k => (k, .absence))

variable {σ : Type} (B : CacheOps σ)

/-- Reads a key: what was put counts first, then a remembered miss, then the cache, behind a
pending clear. -/
def get (now : Instant) (h : Heap) (k : Key) (b : Buffer) (s : σ) :
    Result (Option Entry) × Heap × Buffer × σ :=
  match b.pending.get? k with
  | some e => (.ok (some e), h, b, s)
  | none =>
    if k ∈ b.missed then (.ok none, h, b, s)
    else
      match B.get now h k s with
      | (.error f, h, s) => (.error f, h, b, s)
      | (.ok none, h, s) => (.ok none, h, b.miss k, s)
      | (.ok (some e), h, s) => (.ok (if b.clearing then none else some e), h, b, s)

/-- Forgets a missed key that was never loaded and removes it from the cache, whether or not the
removal succeeds. -/
def release (now : Instant) (h : Heap) (k : Key) (b : Buffer) (s : σ) : Buffer × σ :=
  if k ∈ b.missed then
    ({ b with missed := b.missed.filter (· ≠ k) }, (B.remove now h k s).2.2)
  else (b, s)

/-- Stores entries, each one an instant after the one before. All are tried; the first fault is
reported. -/
def storeAll (h : Heap) : Instant → List (Key × Entry) → σ → Result Unit × σ
  | _, [], s => (.ok (), s)
  | now, (k, e) :: rest, s =>
    let (first, s) := B.put now h k e s
    let (others, s) := storeAll h (now + 1) rest s
    match first with
    | .ok () => (others, s)
    | .error f => (.error f, s)

/-- Removes keys, whether or not the removals succeed. -/
def removeAll (h : Heap) : Instant → List Key → σ → σ
  | _, [], s => s
  | now, k :: rest, s => removeAll h (now + 1) rest (B.remove now h k s).2.2

/-- Publishes what the unit of work did. The buffer is empty afterwards in any case. -/
def commit (now : Instant) (h : Heap) (b : Buffer) (s : σ) : Result Unit × Buffer × σ :=
  let s := if b.clearing then B.clear now s else s
  let (r, s) := storeAll B h (now + 1) b.writes s
  (r, empty, s)

/-- Drops what the unit of work did. -/
def rollback (now : Instant) (h : Heap) (b : Buffer) (s : σ) : Buffer × σ :=
  (empty, removeAll B h now b.missed s)

/-- How many instants a commit or a rollback takes. -/
def span (b : Buffer) : Nat := b.writes.length + b.missed.length + 1

@[simp] theorem isPending_empty : empty.isPending = false := rfl

end Buffer
end ResultCache
