import ResultCache.Text.Decimal
import ResultCache.Text.Quoted
import ResultCache.Value.Outline

/-!
# Texts of values

A value has a plain text, for messages and for the text of cache keys, and a tagged text, which
names the kind of every part. Both are read off the outline, so an object that leads back to itself
shows `{..}` there. Inside the plain text an object shows the tagged texts of its properties.
A frozen value has a plain text of its own: it holds no objects, so its properties are plain too.
-/
namespace ResultCache

open Text (FloatStyle)

/-- Plain numbers never have an exponent, and a whole number has no fraction. -/
def plainFloat : FloatStyle where
  positional _ := true
  fraction := false
  plusSign := false
  tie := .upper
  nan := "NaN"
  infinity := "inf"

/-- Tagged numbers have an exponent from `1e16` on and below `1e-4`. -/
def taggedFloat : FloatStyle where
  positional point := -4 < point && point ≤ 16
  fraction := true
  plusSign := false
  tie := .upper
  nan := "NaN"
  infinity := "inf"

def boolText (b : Bool) : String := if b then "true" else "false"

def int64Text (n : Int64) : String := Text.intText n.toInt

/-- Parts separated by commas, between brackets of some kind. -/
def bracketed (opening : String) (parts : List String) (closing : String) : String :=
  opening ++ ", ".intercalate parts ++ closing

def bytesText (bs : List UInt8) : String :=
  bracketed "[" (bs.map fun b => Text.intText b.toNat) "]"

namespace Outline

mutual

/-- The text that names the kind of every part. -/
def tagged : Outline → String
  | .null => "Null"
  | .bool b => "Boolean(" ++ boolText b ++ ")"
  | .int n => "Int64(" ++ int64Text n ++ ")"
  | .float bits => "Float64(" ++ taggedFloat.text bits ++ ")"
  | .text s => "Utf8(" ++ Text.quoted s ++ ")"
  | .bytes bs => "Binary(" ++ bytesText bs ++ ")"
  | .list ls => "List(" ++ bracketed "[" (taggedAll ls) "]" ++ ")"
  | .object props => "Object(" ++ bracketed "\x7b" (taggedProps props) "\x7d" ++ ")"
  | .ref _ => "Object(\x7b..\x7d)"

def taggedAll : List Outline → List String
  | [] => []
  | l :: ls => tagged l :: taggedAll ls

def taggedProps : List (String × Outline) → List String
  | [] => []
  | (name, l) :: props => (Text.quoted name ++ ": " ++ tagged l) :: taggedProps props

end

mutual

/-- The plain text. -/
def plain : Outline → String
  | .null => "null"
  | .bool b => boolText b
  | .int n => int64Text n
  | .float bits => plainFloat.text bits
  | .text s => s
  | .bytes bs => bytesText bs
  | .list ls => bracketed "[" (plainAll ls) "]"
  | .object props => bracketed "\x7b" (taggedProps props) "\x7d"
  | .ref _ => "\x7b..\x7d"

def plainAll : List Outline → List String
  | [] => []
  | l :: ls => plain l :: plainAll ls

end

end Outline

namespace Frozen

mutual

/-- The plain text of a frozen value. -/
def plain : Frozen → String
  | .null => "null"
  | .bool b => boolText b
  | .int n => int64Text n
  | .float bits => plainFloat.text bits
  | .text s => s
  | .bytes bs => bytesText bs
  | .list fs => bracketed "[" (plainAll fs) "]"
  | .object props => bracketed "\x7b" (plainProps props) "\x7d"

def plainAll : List Frozen → List String
  | [] => []
  | f :: fs => plain f :: plainAll fs

def plainProps : List (String × Frozen) → List String
  | [] => []
  | (name, f) :: props => (name ++ ": " ++ plain f) :: plainProps props

end

end Frozen

/-- The plain text of a value. -/
def Heap.plain (h : Heap) (v : Value) : String := (h.outline v).plain

/-- The tagged text of a value. -/
def Heap.tagged (h : Heap) (v : Value) : String := (h.outline v).tagged

end ResultCache
