import ResultCache.Cache.Basic

/-!
# Clearing at intervals

The layer clears the cache below once more than an interval has passed since it was last cleared.
There is no timer: every operation looks at the clock first. A read or a removal that finds the time
up clears and finds nothing; a put clears and then stores its entry.
-/
namespace ResultCache

structure Expiry where
  interval : Duration
  lastClear : Instant
  deriving DecidableEq, Inhabited

namespace Expiry

/-- The interval runs from the moment the layer is made. -/
def since (now : Instant) (interval : Duration) : Expiry := ⟨interval, now⟩

def initial (now : Instant) : Expiry := since now (milliseconds 3600000)

/-- Whether the time is up. -/
def stale (e : Expiry) (now : Instant) : Bool := e.interval < now - e.lastClear

def cleared (e : Expiry) (now : Instant) : Expiry := { e with lastClear := now }

variable {σ : Type} (B : CacheOps σ)

def clear (now : Instant) (s : Expiry × σ) : Expiry × σ := (s.1.cleared now, B.clear now s.2)

def size (now : Instant) (s : Expiry × σ) : Nat × Expiry × σ :=
  let s := if s.1.stale now then clear B now s else s
  below s.1 (B.size now s.2)

def put (now : Instant) (h : Heap) (k : Key) (v : Entry) (s : Expiry × σ) :
    Result Unit × Expiry × σ :=
  let s := if s.1.stale now then clear B now s else s
  below s.1 (B.put now h k v s.2)

def get (now : Instant) (h : Heap) (k : Key) (s : Expiry × σ) :
    Result (Option Entry) × Heap × Expiry × σ :=
  if s.1.stale now then (.ok none, h, clear B now s)
  else
    let (res, h, under) := B.get now h k s.2
    (res, h, s.1, under)

def remove (now : Instant) (h : Heap) (k : Key) (s : Expiry × σ) :
    Result (Option Entry) × Heap × Expiry × σ :=
  if s.1.stale now then (.ok none, h, clear B now s)
  else
    let (res, h, under) := B.remove now h k s.2
    (res, h, s.1, under)

def ops : CacheOps (Expiry × σ) where
  id s := B.id s.2
  size := size B
  put := put B
  get := get B
  remove := remove B
  clear := clear B
  configure name value s :=
    if name = "clearInterval" then do
      let n ← settingNumber (B.id s.2) name value
      .ok (true, { s.1 with interval := milliseconds n }, s.2)
    else configureBelow s.1 (B.configure name value s.2)
  stats s := B.stats s.2
  resetStats s := (s.1, B.resetStats s.2)

end Expiry
end ResultCache
