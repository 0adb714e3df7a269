import ResultCache.Json.Basic

/-!
# Records in JSON

A record with named fields is read from an object, in which every field may be missing, unknown
members are skipped and no field may occur twice, or from an array, which holds the fields in order
and may end early. A missing field keeps what the initial record has.
-/
namespace ResultCache.Json

def bool? : Json → Option Bool
  | .bool b => some b
  | _ => none

def text? : Json → Option String
  | .string s => s
  | _ => none

/-- A natural number that fits into 64 bits. -/
def nat? : Json → Option Nat
  | .number n => n.unsigned? UInt64.size
  | _ => none

def items? : Json → Option (List Json)
  | .array items => some items
  | _ => none

/-- The members of an object, where every name is a text. -/
def members? : Json → Option (List (String × Json))
  | .object members => members.mapM fun m => m.1.map (·, m.2)
  | _ => none

/-- Null stands for nothing. -/
def optional? {α : Type} (read : Json → Option α) : Json → Option (Option α)
  | .null => some none
  | j => (read j).map some

/-- Reads one of several names, alone or as an object with that name for null. -/
def oneOf? {α : Type} (names : List (String × α)) : Json → Option α
  | .string (some s) => names.lookup s
  | .object [(some s, .null)] => names.lookup s
  | _ => none

/-- Sets fields one after the other. -/
def setAll? {σ : Type} (set : σ → String → Json → Option σ) : σ → List (String × Json) → Option σ
  | r, [] => some r
  | r, (name, j) :: rest => (set r name j).bind fun r => setAll? set r rest

/-- Reads a record with the given fields over an initial one. -/
def fields? {σ : Type} (names : List String) (set : σ → String → Json → Option σ) (initial : σ)
    (j : Json) : Option σ :=
  match j with
  | .array items =>
    if items.length ≤ names.length then setAll? set initial (names.zip items) else none
  | j => do
    let members ← j.members?
    let known := members.filter (·.1 ∈ names)
    if (known.map (·.1)).Nodup then setAll? set initial known else none

/-- The text of a JSON object with the given members. -/
def objectText (members : List (String × String)) : String :=
  "\x7b" ++ ",".intercalate (members.map fun m => stringText m.1 ++ ":" ++ m.2) ++ "\x7d"

def arrayText (items : List String) : String := "[" ++ ",".intercalate items ++ "]"

/-- The text of something that may be missing. -/
def optionText {α : Type} (write : α → String) : Option α → String
  | none => "null"
  | some a => write a

end ResultCache.Json
