import ResultCache.Buffer
import ResultCache.Cache.Pool

/-!
# The buffers of a unit of work

A unit of work has one buffer for each cache it touches, made when it first touches the cache and
kept under the id of the cache. Of two caches with one id, the one that was touched first stands for
both.
-/
namespace ResultCache

structure Buffers where
  byId : Table String (CacheRef × Buffer)

namespace Buffers

def empty : Buffers := ⟨.empty⟩

instance : Inhabited Buffers := ⟨empty⟩

/-- The same buffers in another order, each of which holds the same in another order. -/
def Reordered (bs bs' : Buffers) : Prop :=
  ∀ id, Option.Rel (fun x y => y.1 = x.1 ∧ x.2.Reordered y.2) (bs.byId.get? id) (bs'.byId.get? id)

theorem Reordered.refl (bs : Buffers) : bs.Reordered bs := by
  intro id
  cases bs.byId.get? id with
  | none => exact .none
  | some x => exact .some ⟨rfl, .refl x.2⟩

/-- How a unit of work walks through its buffers when it ends: in any order, which may be another
one at every moment. -/
structure Walk where
  order : Instant → Buffers → Buffers
  reorders : ∀ (now : Instant) (bs : Buffers), bs.Reordered (order now bs)

/-- Whatever was touched first comes first. -/
def Walk.insertion : Walk := ⟨fun _ bs => bs, fun _ bs => .refl bs⟩

instance : Inhabited Walk := ⟨.insertion⟩

/-- The buffer in front of a cache, and the cache it is in front of. -/
def find (bs : Buffers) (p : Pool) (r : CacheRef) : CacheRef × Buffer :=
  (bs.byId.get? (p.idOf r)).getD (r, .empty)

/-- Keeps a buffer for a cache. -/
def keep (bs : Buffers) (p : Pool) (r target : CacheRef) (b : Buffer) : Buffers :=
  ⟨bs.byId.insert (p.idOf r) (target, b)⟩

def hasPending (bs : Buffers) : Bool := bs.byId.entries.any fun e => e.2.2.isPending

def put (r : CacheRef) (k : Key) (e : Entry) (bs : Buffers) (p : Pool) : Buffers :=
  let (target, b) := bs.find p r
  bs.keep p r target (b.put k e)

def clear (r : CacheRef) (bs : Buffers) (p : Pool) : Buffers :=
  let (target, b) := bs.find p r
  bs.keep p r target b.clear

def get (now : Instant) (h : Heap) (r : CacheRef) (k : Key) (bs : Buffers) (p : Pool) :
    Result (Option Entry) × Heap × Buffers × Pool :=
  let (target, b) := bs.find p r
  let (res, h, b, c) := b.get Cache.ops now h k (p.get target)
  (res, h, bs.keep p r target b, p.set target c)

def release (now : Instant) (h : Heap) (r : CacheRef) (k : Key) (bs : Buffers) (p : Pool) :
    Buffers × Pool :=
  let (target, b) := bs.find p r
  let (b, c) := b.release Cache.ops now h k (p.get target)
  (bs.keep p r target b, p.set target c)

/-- Commits the buffers in front of the caches of a pool. All are tried; the first fault is
reported. -/
def commitAll (h : Heap) :
    Instant → List (String × CacheRef × Buffer) → Pool → Result Unit × Pool
  | _, [], p => (.ok (), p)
  | now, (_, target, b) :: rest, p =>
    let (first, _, c) := b.commit Cache.ops now h (p.get target)
    let (others, p) := commitAll h (now + b.span) rest (p.set target c)
    match first with
    | .ok () => (others, p)
    | .error f => (.error f, p)

def rollbackAll (h : Heap) : Instant → List (String × CacheRef × Buffer) → Pool → Pool
  | _, [], p => p
  | now, (_, target, b) :: rest, p =>
    let (_, c) := b.rollback Cache.ops now h (p.get target)
    rollbackAll h (now + b.span) rest (p.set target c)

/-- The same buffers, all empty. -/
def emptied (bs : Buffers) : Buffers :=
  ⟨⟨bs.byId.entries.map fun e => (e.1, e.2.1, .empty), by
    simpa [Function.comp_def] using bs.byId.nodup⟩⟩

/-- How many instants a commit or a rollback of all buffers takes. -/
def span (bs : Buffers) : Nat := bs.byId.entries.foldr (fun e n => e.2.2.span + n) 0

def commit (now : Instant) (h : Heap) (bs : Buffers) (p : Pool) : Result Unit × Buffers × Pool :=
  let (r, p) := commitAll h now bs.byId.entries p
  (r, bs.emptied, p)

def rollback (now : Instant) (h : Heap) (bs : Buffers) (p : Pool) : Buffers × Pool :=
  (bs.emptied, rollbackAll h now bs.byId.entries p)

end Buffers
end ResultCache
