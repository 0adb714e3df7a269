import ResultCache.Cache.Basic

/-!
# Handing out copies

The layer stores rows in encoded form and makes new objects from them at every read, so what a
caller does with the objects it gave or got never reaches the entry. A result that is still loading
cannot be stored this way.
-/
namespace ResultCache.Copying

/-- The form in which an entry is stored. -/
def stored (cache : String) (h : Heap) : Entry → Result Entry
  | .rows vs => .ok (.encoded (h.encodeRows vs))
  | .loading => .error (.configuration (.unfinished cache))
  | e => .ok e

/-- The entry that a stored one stands for, with new objects. -/
def restored (cache : String) (h : Heap) : Option Entry → Result (Option Entry) × Heap
  | some (.encoded bs) =>
    match Frozen.decodeRows bs with
    | .ok fs =>
      let (vs, h) := Frozen.thawAll fs h
      (.ok (some (.rows vs)), h)
    | .error why => (.error (.configuration (.undecodable cache why)), h)
  | e => (.ok e, h)

variable {σ : Type} (B : CacheOps σ)

def put (now : Instant) (h : Heap) (k : Key) (e : Entry) (s : Unit × σ) :
    Result Unit × Unit × σ :=
  match stored (B.id s.2) h e with
  | .ok e => below s.1 (B.put now h k e s.2)
  | .error f => (.error f, s)

/-- Restores what a read or a removal below found. -/
def restoreBelow (cache : String) (r : Result (Option Entry) × Heap × σ) :
    Result (Option Entry) × Heap × Unit × σ :=
  match r with
  | (.ok e, h, under) =>
    let (res, h) := restored cache h e
    (res, h, (), under)
  | (.error f, h, under) => (.error f, h, (), under)

/-- Whatever is restored, the cache below is left as it was found. -/
theorem snd_restoreBelow {σ : Type} (cache : String) (r : Result (Option Entry) × Heap × σ) :
    (restoreBelow cache r).2.2 = ((), r.2.2) := by
  obtain ⟨_ | e, h, under⟩ := r <;> rfl

def ops : CacheOps (Unit × σ) where
  id s := B.id s.2
  size now s := below s.1 (B.size now s.2)
  put := put B
  get now h k s := restoreBelow (B.id s.2) (B.get now h k s.2)
  remove now h k s := restoreBelow (B.id s.2) (B.remove now h k s.2)
  clear now s := (s.1, B.clear now s.2)
  configure name value s := configureBelow s.1 (B.configure name value s.2)
  stats s := B.stats s.2
  resetStats s := (s.1, B.resetStats s.2)

end ResultCache.Copying
