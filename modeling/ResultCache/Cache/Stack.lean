import ResultCache.Cache.Arrival
import ResultCache.Cache.Copying
import ResultCache.Cache.Counting
import ResultCache.Cache.Exclusive
import ResultCache.Cache.Expiry
import ResultCache.Cache.Gate
import ResultCache.Cache.Recency
import ResultCache.Cache.Store

/-!
# Stacks of layers

A cache is a stack of layers over a store. The kinds of its layers, outermost first, determine the
type of its state (`Stack`) and its operations (`stackOps`); a `Cache` is such a list together with
a state.
-/
namespace ResultCache

inductive Layer where
  | recency
  | arrival
  | expiry
  | gate
  | copying
  | exclusive
  | counting
  deriving DecidableEq, Repr

namespace Layer

/-- What a layer of each kind remembers. -/
def State : Layer → Type
  | recency => Recency
  | arrival => Arrival
  | expiry => Expiry
  | gate => Gate
  | copying => Unit
  | exclusive => Unit
  | counting => Stats

/-- A new layer, made at a moment of time, with the usual settings. -/
def initial (now : Instant) : (l : Layer) → l.State
  | recency => Recency.initial
  | arrival => Arrival.initial
  | expiry => Expiry.initial now
  | gate => Gate.ofTimeout none
  | copying => ()
  | exclusive => ()
  | counting => Stats.zero

/-- A new layer over a cache, with its bound set to a number, or its interval or timeout to as many
milliseconds, if the layer has such a setting. -/
def measured (cache : String) (now : Instant) (n : Nat) : (l : Layer) → Result l.State
  | recency => Recency.resized cache n
  | arrival => .ok (Arrival.ofBound n)
  | expiry => .ok (Expiry.since now (milliseconds n))
  | gate => .ok (Gate.ofTimeout (some n))
  | copying => .ok ()
  | exclusive => .ok ()
  | counting => .ok Stats.zero

/-- The operations of a layer over a cache. -/
def ops {σ : Type} : (l : Layer) → CacheOps σ → CacheOps (l.State × σ)
  | recency => Recency.ops
  | arrival => Arrival.ops
  | expiry => Expiry.ops
  | gate => Gate.ops
  | copying => Copying.ops
  | exclusive => Exclusive.ops
  | counting => Counting.ops

end Layer

/-- The states of a stack of layers, outermost first, over a store. -/
def Stack : List Layer → Type
  | [] => Store
  | l :: ls => l.State × Stack ls

def stackOps : (ls : List Layer) → CacheOps (Stack ls)
  | [] => Store.ops
  | l :: ls => l.ops (stackOps ls)

/-- The store at the bottom. -/
def Stack.store : {ls : List Layer} → Stack ls → Store
  | [], s => s
  | _ :: _, s => Stack.store s.2

/-- Replaces the store at the bottom. -/
def Stack.withStore (t : Store) : {ls : List Layer} → Stack ls → Stack ls
  | [], _ => t
  | _ :: _, s => (s.1, Stack.withStore t s.2)

structure Cache where
  layers : List Layer
  state : Stack layers

namespace Cache

def ofStore (s : Store) : Cache := ⟨[], s⟩

instance : Inhabited Cache := ⟨ofStore default⟩

/-- Lays a layer over a cache. -/
def wrap (l : Layer) (state : l.State) (c : Cache) : Cache := ⟨l :: c.layers, (state, c.state)⟩

/-- Lays layers over a cache, the innermost first, each with the usual setting or another one. -/
def wrapAll (now : Instant) : List (Layer × Option Nat) → Cache → Result Cache
  | [], c => .ok c
  | (l, setting) :: ls, c => do
    let state ← match setting with
      | none => .ok (l.initial now)
      | some n => l.measured ((stackOps c.layers).id c.state) now n
    wrapAll now ls (c.wrap l state)

/-- The store at the bottom. -/
def store (c : Cache) : Store := c.state.store

/-- A cache like this one over another store. -/
def withStore (c : Cache) (s : Store) : Cache := ⟨c.layers, c.state.withStore s⟩

def ops : CacheOps Cache where
  id c := (stackOps c.layers).id c.state
  size now c :=
    let (n, s) := (stackOps c.layers).size now c.state
    (n, ⟨c.layers, s⟩)
  put now h k e c :=
    let (r, s) := (stackOps c.layers).put now h k e c.state
    (r, ⟨c.layers, s⟩)
  get now h k c :=
    let (r, h, s) := (stackOps c.layers).get now h k c.state
    (r, h, ⟨c.layers, s⟩)
  remove now h k c :=
    let (r, h, s) := (stackOps c.layers).remove now h k c.state
    (r, h, ⟨c.layers, s⟩)
  clear now c := ⟨c.layers, (stackOps c.layers).clear now c.state⟩
  configure name value c :=
    ((stackOps c.layers).configure name value c.state).map fun p => (p.1, ⟨c.layers, p.2⟩)
  stats c := (stackOps c.layers).stats c.state
  resetStats c := ⟨c.layers, (stackOps c.layers).resetStats c.state⟩

def id (c : Cache) : String := ops.id c

/-- The capacity of an outermost layer that keeps the most recently used keys. -/
def capacity? : Cache → Option Nat
  | ⟨.recency :: _, (r, _)⟩ => some r.capacity
  | _ => none

/-- The interval of an outermost layer that clears at intervals. -/
def interval? : Cache → Option Duration
  | ⟨.expiry :: _, (e, _)⟩ => some e.interval
  | _ => none

/-- How many keys an outermost layer holds locked. -/
def heldLocks? : Cache → Option Nat
  | ⟨.gate :: _, (g, _)⟩ => some g.held.length
  | _ => none

/-- The text that shows a cache, with the number of its entries. -/
def describe (now : Instant) (c : Cache) : String × Cache :=
  let (n, c) := ops.size now c
  ("Cache \x7b id: " ++ Text.quoted (ops.id c) ++ ", size: " ++ Text.intText n ++ " \x7d", c)

end Cache
end ResultCache
