import ResultCache.Json.Token

/-!
# JSON documents

A document as a tree. Members of an object keep the order and the repetitions of the text, numbers
keep their spelling, and a string or a name that is no text is `none`; what these mean is up to the
reader of the tree. A reader of data enters containers inside containers only to a limited depth
(`enter`); text that is skipped may nest without limit.
-/
namespace ResultCache

inductive Json where
  | null
  | bool (b : Bool)
  | number (n : Json.Number)
  | string (s : Option String)
  | array (items : List Json)
  | object (members : List (Option String × Json))
  deriving Inhabited

namespace Json

/-- A container that has been opened and not yet closed; what it holds is kept last first. -/
inductive Frame where
  | array (items : List Json)
  | object (members : List (Option String × Json)) (name : Option String)

/-- What the reader waits for, inside the containers of the stack. -/
inductive Parser where
  | value (stack : List Frame)
  | firstItem (stack : List Frame)
  | firstName (stack : List Frame)
  | nextName (members : List (Option String × Json)) (stack : List Frame)
  | colon (members : List (Option String × Json)) (name : Option String) (stack : List Frame)
  | after (v : Json) (stack : List Frame)

namespace Parser

/-- A value, or the beginning of one. -/
def value? (stack : List Frame) : Token → Option Parser
  | .null => some (.after .null stack)
  | .bool b => some (.after (.bool b) stack)
  | .number n => some (.after (.number n) stack)
  | .string s => some (.after (.string s) stack)
  | .openArray => some (.firstItem stack)
  | .openObject => some (.firstName stack)
  | _ => none

def step : Parser → Token → Option Parser
  | .value stack, t => value? stack t
  | .firstItem stack, .closeArray => some (.after (.array []) stack)
  | .firstItem stack, t => value? (.array [] :: stack) t
  | .firstName stack, .closeObject => some (.after (.object []) stack)
  | .firstName stack, .string s => some (.colon [] s stack)
  | .nextName members stack, .string s => some (.colon members s stack)
  | .colon members name stack, .colon => some (.value (.object members name :: stack))
  | .after v (.array items :: stack), .comma => some (.value (.array (v :: items) :: stack))
  | .after v (.array items :: stack), .closeArray =>
    some (.after (.array (v :: items).reverse) stack)
  | .after v (.object members name :: stack), .comma =>
    some (.nextName ((name, v) :: members) stack)
  | .after v (.object members name :: stack), .closeObject =>
    some (.after (.object ((name, v) :: members).reverse) stack)
  | _, _ => none

/-- Reads tokens to the end, where exactly one value must be complete. -/
def run : Parser → List Token → Option Json
  | .after v [], [] => some v
  | _, [] => none
  | p, t :: ts => (p.step t).bind fun q => q.run ts

end Parser

/-- The document a text holds. -/
def parse? (s : String) : Option Json := (tokens? s).bind (Parser.value []).run

/-- How deep data may nest: a container inside `depthLimit - 1` others is refused. -/
def depthLimit : Nat := 128

/-- The depth that is left inside a container; none if there is none. -/
def enter : Nat → Option Nat
  | room + 2 => some (room + 1)
  | _ => none

/-- A character inside a JSON string: quote, backslash and control characters are escaped, five
controls by a letter and the others by their number. -/
def escapeChar (c : Char) : List Char :=
  if c = '"' then ['\\', '"']
  else if c = '\\' then ['\\', '\\']
  else if c = '\x08' then ['\\', 'b']
  else if c = '\x0c' then ['\\', 'f']
  else if c = '\n' then ['\\', 'n']
  else if c = '\r' then ['\\', 'r']
  else if c = '\t' then ['\\', 't']
  else if c < ' ' then ['\\', 'u', '0', '0'] ++ Text.hexPair c.toNat
  else [c]

/-- The JSON string of a text. -/
def stringText (s : String) : String := String.ofList ('"' :: s.toList.flatMap escapeChar ++ ['"'])

end Json
end ResultCache
