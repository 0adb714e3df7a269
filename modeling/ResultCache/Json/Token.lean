import ResultCache.Json.Number
import ResultCache.Text.Hex

/-!
# Tokens of JSON text

A JSON text is read character by character into tokens; `Lexer` says what the reader is in the
middle of. A string token keeps the text of the string, or nothing when an escape in it stands for
half of a character that needs two: such a string is well-formed JSON, but it is no text.
-/
namespace ResultCache.Json

inductive Token where
  | openArray
  | closeArray
  | openObject
  | closeObject
  | comma
  | colon
  | null
  | bool (b : Bool)
  | number (n : Number)
  | string (s : Option String)
  deriving DecidableEq, Repr

/-- A part of a string: a character, or a UTF-16 unit that an escape names. -/
inductive Piece where
  | char (c : Char)
  | unit (n : Nat)
  deriving DecidableEq, Repr

/-- Joins the parts of a string. Two units make one character where the first is a high and the
second a low surrogate; any other surrogate is no text. -/
def joinPieces : List Piece → Option (List Char)
  | [] => some []
  | .char c :: rest => (c :: ·) <$> joinPieces rest
  | .unit n :: rest =>
    if 0xd800 ≤ n ∧ n < 0xdc00 then
      match rest with
      | .unit m :: rest =>
        if 0xdc00 ≤ m ∧ m < 0xe000 then
          (Char.ofNat (0x10000 + (n - 0xd800) * 0x400 + (m - 0xdc00)) :: ·) <$> joinPieces rest
        else none
      | _ => none
    else if 0xdc00 ≤ n ∧ n < 0xe000 then none
    else (Char.ofNat n :: ·) <$> joinPieces rest

/-- What the reader is in the middle of; parts read so far are kept last first. -/
inductive Lexer where
  | between
  | word (read : List Char)
  | number (read : List Char)
  | string (read : List Piece)
  | escape (read : List Piece)
  | hex (read : List Piece) (missing : Nat) (value : Nat)
  deriving DecidableEq, Repr

namespace Lexer

def isSpace (c : Char) : Bool := c = ' ' || c = '\n' || c = '\t' || c = '\r'

def isNumberChar (c : Char) : Bool :=
  c.isDigit || c = '-' || c = '+' || c = '.' || c = 'e' || c = 'E'

/-- The token a single character is. -/
def punctuation? (c : Char) : Option Token :=
  match c with
  | '[' => some .openArray
  | ']' => some .closeArray
  | '{' => some .openObject
  | '}' => some .closeObject
  | ',' => some .comma
  | ':' => some .colon
  | _ => none

def ofWord? (cs : List Char) : Option Token :=
  if cs = ['n', 'u', 'l', 'l'] then some .null
  else if cs = ['t', 'r', 'u', 'e'] then some (.bool true)
  else if cs = ['f', 'a', 'l', 's', 'e'] then some (.bool false)
  else none

/-- The character a one-letter escape names. -/
def named? (c : Char) : Option Char :=
  match c with
  | '"' => some '"'
  | '\\' => some '\\'
  | '/' => some '/'
  | 'b' => some '\x08'
  | 'f' => some '\x0c'
  | 'n' => some '\n'
  | 'r' => some '\r'
  | 't' => some '\t'
  | _ => none

/-- The first character of a token, or white space. -/
def start (c : Char) : Option (List Token × Lexer) :=
  match punctuation? c with
  | some t => some ([t], .between)
  | none =>
    if isSpace c then some ([], .between)
    else if c = '"' then some ([], .string [])
    else if c = '-' || c.isDigit then some ([], .number [c])
    else if c.isLower then some ([], .word [c])
    else none

/-- The tokens that a character completes, and what the reader is in the middle of after it. -/
def step : Lexer → Char → Option (List Token × Lexer)
  | .between, c => start c
  | .word read, c =>
    if c.isLower then some ([], .word (c :: read))
    else do
      let t ← ofWord? read.reverse
      let (ts, next) ← start c
      some (t :: ts, next)
  | .number read, c =>
    if isNumberChar c then some ([], .number (c :: read))
    else do
      let n ← Number.ofChars? read.reverse
      let (ts, next) ← start c
      some (.number n :: ts, next)
  | .string read, c =>
    if c = '"' then some ([.string ((joinPieces read.reverse).map String.ofList)], .between)
    else if c = '\\' then some ([], .escape read)
    else if c < ' ' then none
    else some ([], .string (.char c :: read))
  | .escape read, c =>
    if c = 'u' then some ([], .hex read 4 0)
    else (named? c).map fun d => ([], .string (.char d :: read))
  | .hex read missing value, c => do
    let d ← Text.hexValue? c
    let value := 16 * value + d
    if missing ≤ 1 then some ([], .string (.unit value :: read))
    else some ([], .hex read (missing - 1) value)

/-- The token that the end of the text completes. -/
def finish : Lexer → Option (List Token)
  | .between => some []
  | .word read => (ofWord? read.reverse).map ([·])
  | .number read => (Number.ofChars? read.reverse).map fun n => [.number n]
  | _ => none

/-- The tokens of the rest of a text. -/
def tokens : Lexer → List Char → Option (List Token)
  | st, [] => st.finish
  | st, c :: cs => do
    let (ts, next) ← st.step c
    let rest ← next.tokens cs
    some (ts ++ rest)

end Lexer

/-- The tokens of a text; nothing if it is not made of tokens. -/
def tokens? (s : String) : Option (List Token) := Lexer.between.tokens s.toList

end ResultCache.Json
