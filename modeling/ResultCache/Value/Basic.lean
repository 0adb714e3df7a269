import ResultCache.NameMap

/-!
# Values

What a cell, a bound parameter or a result can hold. Scalars are their own content: an integer is a
64-bit word, a floating point number is the 64 bits of its binary64 form, so two values agree
exactly when their bits do. An object is only named here, by its identity; its properties live in a
`Heap`, where they can change after the object was handed out, be shared, and refer back to it.
-/
namespace ResultCache

/-- The identity of an object. Two objects with equal properties may be different objects. -/
structure ObjId where
  index : Nat
  deriving DecidableEq, Repr, Inhabited

inductive Value where
  | null
  | bool (b : Bool)
  | int (n : Int64)
  | float (bits : UInt64)
  | text (s : String)
  | bytes (bs : List UInt8)
  | list (vs : List Value)
  | object (o : ObjId)
  deriving Inhabited

/-- A row, or the properties of an object, by name. -/
abbrev Record := NameMap Value

namespace Value

def isNull : Value → Bool
  | .null => true
  | _ => false

def int? : Value → Option Int64
  | .int n => some n
  | _ => none

def text? : Value → Option String
  | .text s => some s
  | _ => none

def list? : Value → Option (List Value)
  | .list vs => some vs
  | _ => none

def object? : Value → Option ObjId
  | .object o => some o
  | _ => none

/-- What an absent value counts as wherever a value is needed. -/
def ofOption : Option Value → Value
  | none => .null
  | some v => v

instance : Coe Bool Value := ⟨.bool⟩
instance : Coe Int64 Value := ⟨.int⟩
instance : Coe String Value := ⟨.text⟩
instance : Coe (List UInt8) Value := ⟨.bytes⟩
instance : Coe (List Value) Value := ⟨.list⟩
instance : Coe ObjId Value := ⟨.object⟩

/-- A 32-bit integer keeps its value. -/
def ofInt32 (n : Int32) : Value := .int n.toInt64

mutual

/-- Decides whether two values are the same, identities included. -/
def same : Value → Value → Bool
  | .null, .null => true
  | .bool a, .bool b => a = b
  | .int a, .int b => a = b
  | .float a, .float b => a = b
  | .text a, .text b => a = b
  | .bytes a, .bytes b => a = b
  | .list a, .list b => sameAll a b
  | .object a, .object b => a = b
  | _, _ => false

def sameAll : List Value → List Value → Bool
  | [], [] => true
  | v :: vs, w :: ws => same v w && sameAll vs ws
  | _, _ => false

end

mutual

theorem same_iff (v w : Value) : same v w = true ↔ v = w := by
  cases v <;> cases w <;> simp [same]
  rename_i vs ws
  exact sameAll_iff vs ws

theorem sameAll_iff (vs ws : List Value) : sameAll vs ws = true ↔ vs = ws := by
  cases vs <;> cases ws <;> simp [sameAll]
  rename_i v vs w ws
  rw [same_iff v w, sameAll_iff vs ws]

end

instance : DecidableEq Value := fun v w => decidable_of_iff _ (same_iff v w)

end Value
end ResultCache
