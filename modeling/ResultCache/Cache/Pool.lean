import ResultCache.Cache.Stack

/-!
# Shared caches

The caches that sessions share, each under a reference. A reference that nothing was put under
stands for an empty perpetual store, so every reference means a cache.
-/
namespace ResultCache

structure CacheRef where
  index : Nat
  deriving DecidableEq, Repr, Inhabited

structure Pool where
  caches : Table CacheRef Cache

namespace Pool

def empty : Pool := ⟨.empty⟩

instance : Inhabited Pool := ⟨empty⟩

def get (p : Pool) (r : CacheRef) : Cache := (p.caches.get? r).getD default

def set (p : Pool) (r : CacheRef) (c : Cache) : Pool := ⟨p.caches.insert r c⟩

/-- The id of a cache. -/
def idOf (p : Pool) (r : CacheRef) : String := (p.get r).id

@[simp] theorem get_set_self (p : Pool) (r : CacheRef) (c : Cache) : (p.set r c).get r = c := by
  simp [get, set]

theorem get_set_of_ne (p : Pool) {r q : CacheRef} (c : Cache) (h : q ≠ r) :
    (p.set r c).get q = p.get q := by
  simp [get, set, Table.get?_insert_of_ne _ _ h]

end Pool
end ResultCache
