import ResultCache.Value.Outline

/-!
# Equality and hashing of values

Two values are equal when they have the same content: floats bit for bit, lists member by member,
and objects when they are the same object or have equal properties. While two objects are compared
both are held, and a held object can be compared with nothing but itself; that is what ends the
comparison of values which lead back to themselves.

A hash is computed from the words a value feeds to the hash function, in order. Each value feeds
the number of its kind and then its content; a list feeds its length first, an object its
properties in order of name, and an object that is already held feeds nothing.
-/
namespace ResultCache

namespace Heap

mutual

/-- Whether two values are equal for a reader that already holds the objects of `held`. -/
def equalHolding (h : Heap) (held : List ObjId) : Value → Value → Bool
  | .null, .null => true
  | .bool a, .bool b => a == b
  | .int a, .int b => a == b
  | .float a, .float b => a == b
  | .text a, .text b => a == b
  | .bytes a, .bytes b => a == b
  | .list as, .list bs => as.length == bs.length && h.equalAll held as bs
  | .object o, .object p =>
    if o = p then true
    else if _ho : o ∈ held then false
    else if p ∈ held then false
    else
      match _hr : h.record? o, h.record? p with
      | some r, some s =>
        r.size == s.size && h.equalProps (p :: o :: held) r.entries s.entries
      | _, _ => false
  | _, _ => false
  termination_by v _ => (h.unvisited held, sizeOf v)
  decreasing_by
    · exact Prod.Lex.right _ (by simp +arith)
    · refine Prod.Lex.left _ _ (Nat.lt_of_le_of_lt ?_
        (unvisited_cons_lt (lt_size_of_record? _hr) _ho))
      exact List.countP_mono_left fun i _ hi => by simp_all

/-- Whether the members of two lists are equal, as far as both go. -/
def equalAll (h : Heap) (held : List ObjId) : List Value → List Value → Bool
  | v :: vs, w :: ws => h.equalHolding held v w && h.equalAll held vs ws
  | _, _ => true
  termination_by vs _ => (h.unvisited held, sizeOf vs)
  decreasing_by
    · exact Prod.Lex.right _ (by simp +arith)
    · exact Prod.Lex.right _ (by simp +arith)

/-- Whether names and values of two lists of properties are equal, as far as both go. -/
def equalProps (h : Heap) (held : List ObjId) :
    List (String × Value) → List (String × Value) → Bool
  | (m, v) :: ps, (n, w) :: qs =>
    m == n && h.equalHolding held v w && h.equalProps held ps qs
  | _, _ => true
  termination_by ps _ => (h.unvisited held, sizeOf ps)
  decreasing_by
    · exact Prod.Lex.right _ (by simp +arith)
    · exact Prod.Lex.right _ (by simp +arith)

end

/-- Whether two values are equal, with no object held beforehand. -/
def equal (h : Heap) (v w : Value) : Bool := h.equalHolding [] v w

end Heap

/-- One word of input to a hash function. -/
inductive HashWord where
  /-- the number of a kind of value -/
  | kind (k : UInt8)
  | word (w : UInt64)
  | length (n : Nat)
  | bytes (bs : List UInt8)
  | text (s : String)
  deriving DecidableEq, Repr

namespace Outline

mutual

/-- The words a value feeds to a hash function. -/
def hashWords : Outline → List HashWord
  | .null => [.kind 0]
  | .bool b => [.kind 1, .word (if b then 1 else 0)]
  | .int n => [.kind 2, .word n.toUInt64]
  | .float bits => [.kind 3, .word bits]
  | .text s => [.kind 4, .text s]
  | .bytes bs => [.kind 5, .length bs.length, .bytes bs]
  | .list ls => .kind 6 :: .length ls.length :: hashWordsAll ls
  | .object props => .kind 7 :: hashWordsProps props
  | .ref _ => [.kind 7]

def hashWordsAll : List Outline → List HashWord
  | [] => []
  | l :: ls => hashWords l ++ hashWordsAll ls

def hashWordsProps : List (String × Outline) → List HashWord
  | [] => []
  | (name, l) :: props => .text name :: hashWords l ++ hashWordsProps props

end

end Outline

/-- The words a value feeds to a hash function, with no object held beforehand. -/
def Heap.hashWords (h : Heap) (v : Value) : List HashWord := (h.outline v).hashWords

end ResultCache
