import ResultCache.Cache.Stats
import ResultCache.Entry
import ResultCache.Text.Setting

/-!
# What a cache does

A cache with states of type `σ` is given by its operations (`CacheOps σ`). Stores have operations
of their own; a layer turns the operations of whatever it lies on into operations of the pair of its
own state and the state below. So what is said of a layer is said of it over any cache at all.

Reading may make new objects, so it takes the heap and returns it. Every operation is given the time
at which it is called. A layer that calls down twice makes the second call one instant later.
-/
namespace ResultCache

/-- A reading of the clock, in nanoseconds. -/
abbrev Instant := Nat

/-- A span of time, in nanoseconds. -/
abbrev Duration := Nat

def milliseconds (n : Nat) : Duration := n * 1000000

structure CacheOps (σ : Type) where
  id : σ → String
  /-- the number of entries; looking may clear a cache whose time is up -/
  size : Instant → σ → Nat × σ
  put : Instant → Heap → Key → Entry → σ → Result Unit × σ
  get : Instant → Heap → Key → σ → Result (Option Entry) × Heap × σ
  remove : Instant → Heap → Key → σ → Result (Option Entry) × Heap × σ
  clear : Instant → σ → σ
  /-- sets a named property; false if nothing in the cache has such a property -/
  configure : String → String → σ → Result (Bool × σ)
  /-- the counters of the outermost counting layer -/
  stats : σ → Option Stats
  resetStats : σ → σ

/-- The number a property is set to. -/
def settingNumber (cache name value : String) : Result Nat :=
  match Text.settingNumber? value with
  | some n => .ok n
  | none => .error (.configuration (.badSetting value name cache))

/-- Passes an operation that has no effect of its own on to the state below. -/
def below {α ρ σ : Type} (l : ρ) (r : α × σ) : α × ρ × σ := (r.1, l, r.2)

/-- Passes a setting on to the state below. -/
def configureBelow {ρ σ : Type} (l : ρ) (r : Result (Bool × σ)) : Result (Bool × ρ × σ) :=
  r.map fun p => (p.1, l, p.2)

end ResultCache
