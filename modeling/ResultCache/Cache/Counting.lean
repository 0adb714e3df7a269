import ResultCache.Cache.Basic

/-!
# Counting reads

The layer counts the reads that return, and how many of them found an entry. It changes nothing.
-/
namespace ResultCache.Counting

variable {σ : Type} (B : CacheOps σ)

def get (now : Instant) (h : Heap) (k : Key) (s : Stats × σ) :
    Result (Option Entry) × Heap × Stats × σ :=
  match B.get now h k s.2 with
  | (.ok e, h, under) => (.ok e, h, s.1.record e.isSome, under)
  | (.error f, h, under) => (.error f, h, s.1, under)

def ops : CacheOps (Stats × σ) where
  id s := B.id s.2
  size now s := below s.1 (B.size now s.2)
  put now h k e s := below s.1 (B.put now h k e s.2)
  get := get B
  remove now h k s :=
    let (res, h, under) := B.remove now h k s.2
    (res, h, s.1, under)
  clear now s := (s.1, B.clear now s.2)
  configure name value s := configureBelow s.1 (B.configure name value s.2)
  stats s := some s.1
  resetStats s := (.zero, s.2)

end ResultCache.Counting
