import ResultCache.Text.Printable

/-!
# Quoted text

A text between double quotes, in which every character that a reader would not see as itself is
escaped: the quote and the backslash by a backslash, four controls by a letter, and the other
hidden characters by their code point in braces.
-/
namespace ResultCache.Text

/-- The escape that names a code point. -/
def codePointEscape (c : Char) : List Char :=
  ['\\', 'u', '{'] ++ Nat.toDigits 16 c.toNat ++ ['}']

def quoteChar (c : Char) : List Char :=
  if c = '"' then ['\\', '"']
  else if c = '\\' then ['\\', '\\']
  else if c = '\n' then ['\\', 'n']
  else if c = '\r' then ['\\', 'r']
  else if c = '\t' then ['\\', 't']
  else if c = '\x00' then ['\\', '0']
  else if isHidden c then codePointEscape c
  else [c]

/-- A text in quotes. -/
def quoted (s : String) : String := String.ofList ('"' :: s.toList.flatMap quoteChar ++ ['"'])

example : quoteChar '"' = ['\\', '"'] ∧ quoteChar 'a' = ['a'] ∧
    quoteChar '\x1b' = ['\\', 'u', '{', '1', 'b', '}'] := by decide +kernel

end ResultCache.Text
