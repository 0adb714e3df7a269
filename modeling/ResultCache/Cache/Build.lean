import ResultCache.Cache.Config
import ResultCache.Cache.Registry

/-!
# Building caches

Builds the cache of a namespace from its configuration. Over the perpetual store lie, from the
inside out, the configured layers (by default the one that keeps the most recently used keys), the
layer that clears at intervals if there is an interval, the copying layer if callers get copies, the
layers that let one caller through at a time and count the reads, and the locking layer if the cache
locks. A store of another kind keeps its own behaviour; its reads are only counted.

Every layer is offered all the properties when it is in place, in order of name, and passes on what
it does not know; so the properties reach the store and the layers below it again.
-/
namespace ResultCache.Cache

/-- Offers properties to a cache; the first one that is rejected ends the building. -/
def applyProperties : List (String × String) → Cache → Result Cache
  | [], c => .ok c
  | (name, value) :: rest, c => do
    let (_, c) ← ops.configure name value c
    applyProperties rest c

/-- Lays the named layers over a cache, one after the other. -/
def addLayers (now : Instant) (r : Registry) (properties : List (String × String)) :
    List String → Cache → Result Cache
  | [], c => .ok c
  | name :: names, c => do
    let l ← r.layer name
    let c ← applyProperties properties (c.wrap l (l.initial now))
    addLayers now r properties names c

/-- Lays a layer over a cache if the configuration asks for it. -/
def wrapIf (b : Bool) (l : Layer) (state : l.State) (c : Cache) : Cache :=
  if b then c.wrap l state else c

/-- The standard layers around the configured ones. -/
def addStandard (now : Instant) (config : Config) (c : Cache) : Result Cache := do
  let c ← match config.size with
    | some n => (ops.configure "size" (Config.natText n) c).map (·.2)
    | none => .ok c
  let c := match config.clearInterval with
    | some ms => c.wrap .expiry (Expiry.since now (milliseconds ms))
    | none => c
  let c := c.wrapIf config.copies .copying ()
  let c := (c.wrap .exclusive ()).wrap .counting Stats.zero
  if config.locks then
    applyProperties config.properties.entries (c.wrap .gate (Gate.ofTimeout none))
  else .ok c

/-- The cache that a configuration describes. -/
def build (now : Instant) (r : Registry) (id : String) (config : Config) : Result Cache := do
  let (store, layers) := match config.store with
    | some store => (store, config.layers)
    | none => ("PERPETUAL", if config.layers = [] then ["LRU"] else config.layers)
  let properties := config.properties.entries
  let s ← r.newStore store id
  let c ← applyProperties properties (ofStore s)
  if Text.upperAscii store = "PERPETUAL" then
    let c ← addLayers now r properties layers c
    addStandard now config c
  else .ok (c.wrap .counting Stats.zero)

end ResultCache.Cache
