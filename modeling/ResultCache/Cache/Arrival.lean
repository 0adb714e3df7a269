import ResultCache.Cache.Basic

/-!
# Keeping the latest arrivals

The layer keeps a queue of the keys that were put, in the order of the puts. When the queue grows
beyond its bound, its oldest key leaves and is removed below, before the new entry is stored. Every
put joins the queue, also one of a key that is already in it, and a removal does not leave it.
-/
namespace ResultCache

structure Arrival where
  bound : Nat
  /-- the oldest key first -/
  queue : List Key
  deriving Inhabited

namespace Arrival

def ofBound (n : Nat) : Arrival := ⟨n, []⟩

def initial : Arrival := ofBound 1024

/-- A key joins the queue; the oldest one leaves if the queue is too long then. -/
def push (a : Arrival) (k : Key) : Option Key × Arrival :=
  match a.queue ++ [k] with
  | oldest :: rest =>
    if a.bound < (a.queue ++ [k]).length then (some oldest, { a with queue := rest })
    else (none, { a with queue := a.queue ++ [k] })
  | [] => (none, a)

def forget (a : Arrival) : Arrival := { a with queue := [] }

variable {σ : Type} (B : CacheOps σ)

/-- Makes room below first, then stores the entry. -/
def put (now : Instant) (h : Heap) (k : Key) (e : Entry) (s : Arrival × σ) :
    Result Unit × Arrival × σ :=
  match s.1.push k with
  | (none, a) => below a (B.put now h k e s.2)
  | (some oldest, a) =>
    match B.remove now h oldest s.2 with
    | (.error f, _, s) => (.error f, a, s)
    | (.ok _, _, s) => below a (B.put (now + 1) h k e s)

def ops : CacheOps (Arrival × σ) where
  id s := B.id s.2
  size now s := below s.1 (B.size now s.2)
  put := put B
  get now h k s :=
    let (res, h, under) := B.get now h k s.2
    (res, h, s.1, under)
  remove now h k s :=
    let (res, h, under) := B.remove now h k s.2
    (res, h, s.1, under)
  clear now s := (s.1.forget, B.clear now s.2)
  configure name value s :=
    if name = "size" then do
      let n ← settingNumber (B.id s.2) name value
      .ok (true, { s.1 with bound := n }, s.2)
    else configureBelow s.1 (B.configure name value s.2)
  stats s := B.stats s.2
  resetStats s := (s.1, B.resetStats s.2)

end Arrival
end ResultCache
