/-!
# Values of settings

A setting is written as text. A number in a setting may have white space around it (any character
of Unicode's property `White_Space`) and one plus sign in front of its decimal digits, and it must
fit into a 64-bit word.
-/
namespace ResultCache.Text

/-- The code points of the property `White_Space`, as inclusive ranges. -/
def blankRanges : List (Nat × Nat) :=
  [(0x9, 0xd), (0x20, 0x20), (0x85, 0x85), (0xa0, 0xa0), (0x1680, 0x1680), (0x2000, 0x200a),
   (0x2028, 0x2029), (0x202f, 0x202f), (0x205f, 0x205f), (0x3000, 0x3000)]

def isBlank (c : Char) : Bool := blankRanges.any fun r => r.1 ≤ c.toNat && c.toNat ≤ r.2

theorem isBlank_of_isWhitespace {c : Char} (h : c.isWhitespace) : isBlank c := by
  simp only [Char.isWhitespace, Bool.or_eq_true, decide_eq_true_eq] at h
  rcases h with ((h | h) | h) | h <;> subst h <;> decide

/-- A text without the blanks at its ends. -/
def trim (cs : List Char) : List Char :=
  ((cs.dropWhile isBlank).reverse.dropWhile isBlank).reverse

/-- The value of a digit string. -/
def digitsValue (cs : List Char) : Nat := cs.foldl (fun n c => 10 * n + (c.toNat - '0'.toNat)) 0

/-- One or more decimal digits, after at most one plus sign, of a value that fits into 64 bits. -/
def unsigned? (cs : List Char) : Option Nat :=
  let digits := match cs with
    | '+' :: rest => rest
    | _ => cs
  if digits ≠ [] && digits.all Char.isDigit && digitsValue digits < UInt64.size then
    some (digitsValue digits)
  else none

/-- The number a setting is set to. -/
def settingNumber? (s : String) : Option Nat := unsigned? (trim s.toList)

example : settingNumber? " +07\n" = some 7 ∧ settingNumber? "-0" = none ∧
    settingNumber? "+" = none ∧ settingNumber? "18446744073709551616" = none := by decide +kernel

end ResultCache.Text
