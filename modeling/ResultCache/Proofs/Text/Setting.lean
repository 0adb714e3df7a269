import ResultCache.Text.Decimal
import ResultCache.Text.Setting

/-!
# Numbers written as settings

The decimal digits of a number have no blanks around them and no sign, so a setting that is written
as a number is read as that number if it fits (`settingNumber?_intText`).
-/
namespace ResultCache.Text

theorem isBlank_of_isDigit {c : Char} (hc : c.isDigit = true) : isBlank c = false := by
  have hrange : 48 ≤ c.toNat ∧ c.toNat ≤ 57 := by
    simp only [Char.isDigit, Bool.and_eq_true, decide_eq_true_eq, ge_iff_le,
      UInt32.le_iff_toNat_le] at hc
    exact hc
  simp only [isBlank, blankRanges, List.any_cons, List.any_nil, Bool.or_false, Bool.or_eq_false_iff,
    Bool.and_eq_false_iff, decide_eq_false_iff_not]
  omega

/-- A text without blanks has none at its ends. -/
theorem trim_of_forall {cs : List Char} (hcs : ∀ c ∈ cs, isBlank c = false) : trim cs = cs := by
  have hdrop : ∀ ds : List Char, (∀ c ∈ ds, isBlank c = false) → ds.dropWhile isBlank = ds := by
    intro ds hds
    cases ds with
    | nil => rfl
    | cons d ds => simp [hds d]
  rw [trim, hdrop cs hcs, hdrop, List.reverse_reverse]
  simpa using hcs

/-- Digits that fit are read as their value. -/
theorem unsigned?_of_digits {cs : List Char} {m : Nat} (hcs : ∀ c ∈ cs, c.isDigit = true)
    (hm : unsigned? cs = some m) : m = digitsValue cs := by
  rw [unsigned?] at hm
  · split at hm
    · exact (Option.some.inj hm).symm
    · cases hm
  · rintro rest rfl
    exact absurd (hcs '+' (by simp)) (by decide)

theorem settingNumber?_intText {n m : Nat} (hm : settingNumber? (intText n) = some m) : m = n := by
  have htext : (intText n).toList = Nat.toDigits 10 n := by
    rw [intText, if_neg (by omega), Int.natAbs_natCast, String.toList_ofList, digitsOf]
  have hdigits : ∀ c ∈ Nat.toDigits 10 n, c.isDigit = true :=
    fun c hc => Nat.isDigit_of_mem_toDigits (by decide) (by decide) hc
  rw [settingNumber?, htext, trim_of_forall fun c hc => isBlank_of_isDigit (hdigits c hc)] at hm
  calc m = digitsValue (Nat.toDigits 10 n) := unsigned?_of_digits hdigits hm
    _ = n := Nat.ofDigitChars_ten_toDigits

end ResultCache.Text
