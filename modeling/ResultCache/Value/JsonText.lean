import ResultCache.Json.Basic
import ResultCache.Value.Text

/-!
# Values as JSON

In JSON a value is tagged with its kind: null is the string of its tag, every other value is an
object with one member, whose name is the tag and whose value is the content. An object that leads
back to itself is written as an object without properties there. Floating point numbers that JSON
cannot write become `null`, which does not read back.

Reading builds a frozen value: of a repeated property the last one counts, and containers may nest
to `Json.depthLimit`, where every tagged value counts as a container besides its content.
-/
namespace ResultCache

/-- JSON numbers have an exponent from `1e+16` on and below `1e-5`. -/
def jsonFloat : Text.FloatStyle where
  positional point := -5 < point && point ≤ 16
  fraction := true
  plusSign := true
  tie := .even
  nan := "null"
  infinity := "null"

/-- The JSON text of a floating point number; there is none with a sign for infinity. -/
def jsonFloatText (bits : UInt64) : String :=
  match Text.FloatClass.ofBits bits with
  | .nan => "null"
  | .infinite _ => "null"
  | _ => jsonFloat.text bits

/-- Parts separated by bare commas. -/
def compact (opening : String) (parts : List String) (closing : String) : String :=
  opening ++ ",".intercalate parts ++ closing

/-- One tagged value. -/
def taggedJson (tag content : String) : String :=
  compact "\x7b" [Json.stringText tag ++ ":" ++ content] "\x7d"

namespace Outline

mutual

def json : Outline → String
  | .null => Json.stringText "Null"
  | .bool b => taggedJson "Boolean" (boolText b)
  | .int n => taggedJson "Int64" (int64Text n)
  | .float bits => taggedJson "Float64" (jsonFloatText bits)
  | .text s => taggedJson "Utf8" (Json.stringText s)
  | .bytes bs => taggedJson "Binary" (compact "[" (bs.map fun b => Text.intText b.toNat) "]")
  | .list ls => taggedJson "List" (compact "[" (jsonAll ls) "]")
  | .object props => taggedJson "Object" (compact "\x7b" (jsonProps props) "\x7d")
  | .ref _ => taggedJson "Object" (compact "\x7b" [] "\x7d")

def jsonAll : List Outline → List String
  | [] => []
  | l :: ls => json l :: jsonAll ls

def jsonProps : List (String × Outline) → List String
  | [] => []
  | (name, l) :: props => (Json.stringText name ++ ":" ++ json l) :: jsonProps props

end

end Outline

/-- The JSON text of a value. -/
def Heap.json (h : Heap) (v : Value) : String := (h.outline v).json

namespace Frozen

/-- A byte. -/
def byteOfJson? : Json → Option UInt8
  | .number n => (n.unsigned? 256).map UInt8.ofNat
  | _ => none

mutual

/-- The value that a document tagged with kinds holds, where `room` is the depth that is left. -/
def ofJson? (room : Nat) : Json → Option Frozen
  | .string (some "Null") => some .null
  | .object [(some tag, content)] => do
    let room ← Json.enter room
    match tag, content with
    | "Null", .null => some .null
    | "Boolean", .bool b => some (.bool b)
    | "Int64", .number n => n.int64?.map .int
    | "Float64", .number n => n.float?.map fun f => .float f.toBits
    | "Utf8", .string (some s) => some (.text s)
    | "Binary", .array items => do
      let _ ← Json.enter room
      (items.mapM byteOfJson?).map .bytes
    | "List", .array items => do
      let room ← Json.enter room
      (allOfJson? room items).map .list
    | "Object", .object members => do
      let room ← Json.enter room
      (propsOfJson? room members).map fun ps => .object (NameMap.ofList ps).entries
    | _, _ => none
  | _ => none

def allOfJson? (room : Nat) : List Json → Option (List Frozen)
  | [] => some []
  | j :: js => do
    let f ← ofJson? room j
    let fs ← allOfJson? room js
    some (f :: fs)

def propsOfJson? (room : Nat) : List (Option String × Json) → Option (List (String × Frozen))
  | [] => some []
  | (some name, j) :: ms => do
    let f ← ofJson? room j
    let ps ← propsOfJson? room ms
    some ((name, f) :: ps)
  | (none, _) :: _ => none

end

/-- The value whose JSON text is `s`. -/
def parse? (s : String) : Option Frozen := (Json.parse? s).bind (ofJson? Json.depthLimit)

end Frozen
end ResultCache
