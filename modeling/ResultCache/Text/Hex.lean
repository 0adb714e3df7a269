/-!
# Hexadecimal digits

Bytes as text, two digits each, the high half first. Digits are written in lower case and read in
either case. Main fact: `hexBytes?_hexDigits`, what is written reads back.
-/
namespace ResultCache.Text

/-- The value of a hexadecimal digit. -/
def hexValue? (c : Char) : Option Nat :=
  if c.isDigit then some (c.toNat - '0'.toNat)
  else if 'a' ≤ c ∧ c ≤ 'f' then some (c.toNat - 'a'.toNat + 10)
  else if 'A' ≤ c ∧ c ≤ 'F' then some (c.toNat - 'A'.toNat + 10)
  else none

/-- The two digits of a number below 256. -/
def hexPair (n : Nat) : List Char := [Nat.digitChar (n / 16), Nat.digitChar (n % 16)]

def hexDigits (bs : List UInt8) : List Char := bs.flatMap fun b => hexPair b.toNat

/-- The bytes that digits stand for, two digits each. -/
def hexBytes? : List Char → Option (List UInt8)
  | [] => some []
  | [_] => none
  | a :: b :: rest => do
    let high ← hexValue? a
    let low ← hexValue? b
    let bs ← hexBytes? rest
    some (.ofNat (16 * high + low) :: bs)

theorem hexValue?_digitChar : ∀ n < 16, hexValue? (Nat.digitChar n) = some n := by decide

theorem hexBytes?_hexDigits (bs : List UInt8) : hexBytes? (hexDigits bs) = some bs := by
  induction bs with
  | nil => rfl
  | cons b bs ih =>
    have high : b.toNat / 16 < 16 := by have := b.toNat_lt; omega
    have low : b.toNat % 16 < 16 := by omega
    have : 16 * (b.toNat / 16) + b.toNat % 16 = b.toNat := by omega
    have byte : UInt8.ofNat (16 * (b.toNat / 16) + b.toNat % 16) = b := by simp [this]
    have cons : hexDigits (b :: bs) =
        Nat.digitChar (b.toNat / 16) :: Nat.digitChar (b.toNat % 16) :: hexDigits bs := rfl
    rw [cons, hexBytes?, hexValue?_digitChar _ high, hexValue?_digitChar _ low, ih]
    simp only [Option.bind_eq_bind, Option.bind_some, byte]

end ResultCache.Text
