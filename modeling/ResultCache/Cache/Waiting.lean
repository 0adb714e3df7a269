import ResultCache.Cache.Pool

/-!
# Reads that wait

A read of a locked key waits until the key is unlocked. In a run of one call after the other that
shows between calls only: a read that would wait is set aside, other calls may unlock its key, and
when it is resumed it reads what is there then. A wait whose time is up while its key is still
locked has failed for good.
-/
namespace ResultCache

/-- Whether a read that ends like this has waited; a wait of no time at all is none. -/
def Fault.isWait : Fault → Bool
  | .lockTimeout _ _ timeout => 0 < timeout
  | .endlessWait .. => true
  | _ => false

/-- A read that waits for a locked key. -/
structure Waiting where
  cache : CacheRef
  key : Key
  since : Instant
  /-- how the wait failed, if it did -/
  failed : Option Fault

namespace Pool

/-- Reads a key of a cache. -/
def read (now : Instant) (h : Heap) (r : CacheRef) (k : Key) (p : Pool) :
    Result (Option Entry) × Heap × Pool :=
  let (res, h, c) := Cache.ops.get now h k (p.get r)
  (res, h, p.set r c)

/-- Reads a key of a cache unless the read has to wait; then it changes nothing. -/
def readOrWait (now : Instant) (h : Heap) (r : CacheRef) (k : Key) (p : Pool) :
    Except Waiting (Result (Option Entry)) × Heap × Pool :=
  match p.read now h r k with
  | (.error f, h', p') =>
    if f.isWait then (.error ⟨r, k, now, none⟩, h, p) else (.ok (.error f), h', p')
  | (.ok e, h', p') => (.ok (.ok e), h', p')

end Pool

namespace Waiting

/-- Fails a wait whose time is up while its key is still locked. -/
def elapse (now : Instant) (h : Heap) (p : Pool) (w : Waiting) : Waiting :=
  match w.failed, (p.read now h w.cache w.key).1 with
  | none, .error (.lockTimeout key cache timeout) =>
    if w.since + milliseconds timeout ≤ now then
      { w with failed := some (.lockTimeout key cache timeout) }
    else w
  | _, _ => w

/-- Ends a wait. -/
def resume (now : Instant) (h : Heap) (w : Waiting) (p : Pool) :
    Result (Option Entry) × Heap × Pool :=
  match w.failed with
  | some f => (.error f, h, p)
  | none => p.read now h w.cache w.key

end Waiting
end ResultCache
