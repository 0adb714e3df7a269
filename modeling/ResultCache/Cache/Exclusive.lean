import ResultCache.Cache.Basic

/-!
# One call at a time

The layer lets callers through one after the other, so that what the layers below it do in several
steps is never seen half done. A run of calls one after the other cannot tell that it is there.
-/
namespace ResultCache.Exclusive

variable {σ : Type} (B : CacheOps σ)

def ops : CacheOps (Unit × σ) where
  id s := B.id s.2
  size now s := below s.1 (B.size now s.2)
  put now h k e s := below s.1 (B.put now h k e s.2)
  get now h k s :=
    let (res, h, under) := B.get now h k s.2
    (res, h, s.1, under)
  remove now h k s :=
    let (res, h, under) := B.remove now h k s.2
    (res, h, s.1, under)
  clear now s := (s.1, B.clear now s.2)
  configure name value s := configureBelow s.1 (B.configure name value s.2)
  stats s := B.stats s.2
  resetStats s := (s.1, B.resetStats s.2)

end ResultCache.Exclusive
