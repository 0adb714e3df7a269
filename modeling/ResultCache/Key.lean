import ResultCache.Value.Text

/-!
# Cache keys

A key is the list of everything that identifies one run of a query. Its components are frozen when
they are appended, so no later change to an object reaches a key that a cache already holds. Along
with the components a key carries their number, the sum of their hashes and a hash that depends on
their order, in wrapping 64-bit arithmetic; keys compare by all four, cheap parts first.

How a component is hashed is a parameter (`ComponentHash`); the one thing fixed is that null hashes
to one. Main facts: `components_append` and `count_append`, and `ofComponents_append`: it makes no
difference how the appends were grouped.
-/
namespace ResultCache

/-- A way to hash components. -/
structure ComponentHash where
  hash : Frozen → Int64
  hash_null : hash .null = 1

structure Key where
  hashcode : Int64
  checksum : Int64
  count : Nat
  components : List Frozen
  deriving DecidableEq, Inhabited

/-- A hash map looks for a key by its hash alone, then compares. -/
instance : Hashable Key := ⟨fun k => hash k.hashcode⟩

namespace Key

/-- The key without components. -/
def empty : Key := ⟨17, 0, 0, []⟩

/-- Appends one component. -/
def append (H : ComponentHash) (k : Key) (c : Frozen) : Key where
  hashcode := 37 * k.hashcode + H.hash c * Int64.ofNat (k.count + 1)
  checksum := k.checksum + H.hash c
  count := k.count + 1
  components := k.components ++ [c]

/-- Appends components in order. -/
def appendAll (H : ComponentHash) (k : Key) (cs : List Frozen) : Key := cs.foldl (append H) k

def ofComponents (H : ComponentHash) (cs : List Frozen) : Key := empty.appendAll H cs

@[simp] theorem components_append (H : ComponentHash) (k : Key) (c : Frozen) :
    (k.append H c).components = k.components ++ [c] := rfl

@[simp] theorem count_append (H : ComponentHash) (k : Key) (c : Frozen) :
    (k.append H c).count = k.count + 1 := rfl

theorem ofComponents_append (H : ComponentHash) (cs ds : List Frozen) :
    (ofComponents H cs).appendAll H ds = ofComponents H (cs ++ ds) := by
  simp [ofComponents, appendAll]

/-- The text of a key: its two hashes and its components, separated by colons. -/
def text (k : Key) : String :=
  ":".intercalate (int64Text k.hashcode :: int64Text k.checksum :: k.components.map Frozen.plain)

end Key

namespace Frozen

/-- Mixes a word into a hash. -/
def mix (h w : UInt64) : UInt64 := (h ^^^ w) * 0x100000001b3

def mixText (h : UInt64) (s : String) : UInt64 :=
  s.toList.foldl (fun h c => mix h c.val.toUInt64) (mix h s.length.toUInt64)

mutual

/-- Mixes a frozen value into a hash, its kind first. -/
def mixInto (h : UInt64) : Frozen → UInt64
  | .null => mix h 0
  | .bool b => mix (mix h 1) (if b then 1 else 0)
  | .int n => mix (mix h 2) n.toUInt64
  | .float bits => mix (mix h 3) bits
  | .text s => mixText (mix h 4) s
  | .bytes bs => bs.foldl (fun h b => mix h b.toUInt64) (mix (mix h 5) bs.length.toUInt64)
  | .list fs => mixAll (mix (mix h 6) fs.length.toUInt64) fs
  | .object ps => mixProps (mix (mix h 7) ps.length.toUInt64) ps

def mixAll (h : UInt64) : List Frozen → UInt64
  | [] => h
  | f :: fs => mixAll (mixInto h f) fs

def mixProps (h : UInt64) : List (String × Frozen) → UInt64
  | [] => h
  | (name, f) :: ps => mixProps (mixInto (mixText h name) f) ps

end

end Frozen

/-- A hash that mixes the parts of a component one after the other. -/
def ComponentHash.mixing : ComponentHash where
  hash f := if f.isNull then 1 else (f.mixInto 0xcbf29ce484222325).toInt64
  hash_null := rfl

end ResultCache
