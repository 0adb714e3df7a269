import Mathlib.Data.Nat.Notation
import ResultCache.Json.Token
import ResultCache.Text.Decimal

/-!
# Numbers read back from their text

`Number.chars` writes a number down, and a number that the grammar knows is read back from what was
written (`Written.ofChars?_chars`). An integer is written in the digits of its absolute value
(`ofInt`); if it fits into 64 bits or into a byte it comes back as the integer it was
(`int64?_ofInt`, `unsigned?_ofInt`).
-/
namespace ResultCache.Json.Number

/-- The digits after the point, with the point. -/
def fractionChars (n : Number) : List Char := n.fraction.elim [] ('.' :: ·)

/-- The exponent, with its letter and, below zero, its sign. -/
def exponentChars (n : Number) : List Char :=
  n.exponent.elim [] fun e => 'e' :: (if e.1 then '-' :: e.2 else e.2)

/-- The text of a number. -/
def chars (n : Number) : List Char :=
  (if n.negative then ['-'] else []) ++ (n.whole ++ (n.fractionChars ++ n.exponentChars))

def IsDigits (cs : List Char) : Prop := cs ≠ [] ∧ ∀ c ∈ cs, c.isDigit = true

/-- The parts of a number as the grammar has them. -/
structure Written (n : Number) : Prop where
  whole : IsDigits n.whole
  lead : n.whole.head? = some '0' → n.whole = ['0']
  fraction : ∀ ds ∈ n.fraction, IsDigits ds
  exponent : ∀ e ∈ n.exponent, IsDigits e.2

theorem IsDigits.exists_cons {cs : List Char} (hcs : IsDigits cs) :
    ∃ c ds, cs = c :: ds ∧ c.isDigit = true := by
  obtain ⟨hne, hall⟩ := hcs
  cases cs with
  | nil => exact (hne rfl).elim
  | cons c ds => exact ⟨c, ds, rfl, hall c List.mem_cons_self⟩

/-- Digits end where something else begins. -/
theorem IsDigits.span {cs rest : List Char} (hcs : IsDigits cs)
    (hrest : ∀ c ∈ rest.head?, c.isDigit = false) :
    (cs ++ rest).takeWhile Char.isDigit = cs ∧ (cs ++ rest).dropWhile Char.isDigit = rest := by
  rw [List.takeWhile_append_of_pos hcs.2, List.dropWhile_append_of_pos hcs.2]
  cases rest with
  | nil => simp
  | cons c rest =>
    have hc := hrest c rfl
    simp [hc]

theorem exponent?_eq {e : Bool × List Char} (he : IsDigits e.2) :
    exponent? (if e.1 then '-' :: e.2 else e.2) = some e := by
  obtain ⟨negative, ds⟩ := e
  obtain ⟨c, cs, rfl, hc⟩ := he.exists_cons
  have hall : (c :: cs).all Char.isDigit = true := List.all_eq_true.2 he.2
  cases negative with
  | true => simp [exponent?, hall]
  | false =>
    have hplus : c ≠ '+' := fun h => by rw [h] at hc; cases hc
    have hminus : c ≠ '-' := fun h => by rw [h] at hc; cases hc
    simp [exponent?, hplus, hminus, hall]

/-- What is behind the digits of a number begins with no digit. -/
theorem head?_exponentChars (n : Number) : ∀ c ∈ n.exponentChars.head?, c.isDigit = false := by
  intro c hc
  rw [exponentChars] at hc
  cases he : n.exponent with
  | none => rw [he] at hc; cases hc
  | some e => rw [he] at hc; cases hc; rfl

theorem head?_fractionChars (n : Number) :
    ∀ c ∈ (n.fractionChars ++ n.exponentChars).head?, c.isDigit = false := by
  intro c hc
  cases hf : n.fraction with
  | none =>
    rw [fractionChars, hf] at hc
    exact n.head?_exponentChars c hc
  | some ds => rw [fractionChars, hf] at hc; cases hc; rfl

/-- A number is taken apart at its point and its exponent, as those are no digits. -/
theorem Written.ofChars?_chars {n : Number} (hn : n.Written) : ofChars? n.chars = some n := by
  obtain ⟨htake, hdrop⟩ := hn.whole.span n.head?_fractionChars
  have hexp := n.head?_exponentChars
  obtain ⟨negative, whole, fraction, exponent⟩ := n
  obtain ⟨hwhole, hlead, hfraction, hexponent⟩ := hn
  dsimp only at *
  obtain ⟨c, cs, rfl, hc⟩ := hwhole.exists_cons
  have hminus : c ≠ '-' := fun h => by rw [h] at hc; cases hc
  have hzero : c = '0' → c = '0' ∧ cs = [] := by simpa using hlead
  cases fraction with
  | none =>
    cases exponent with
    | none =>
      simp only [fractionChars, exponentChars, Option.elim_none, List.append_nil] at htake hdrop
      cases negative <;> simpa [ofChars?, chars, fractionChars, exponentChars, hminus, htake, hdrop]
    | some e =>
      have he := exponent?_eq (hexponent e rfl)
      simp only [fractionChars, exponentChars, Option.elim_none, Option.elim_some, List.nil_append,
        List.cons_append] at htake hdrop
      cases negative <;>
        simpa [ofChars?, chars, fractionChars, exponentChars, hminus, htake, hdrop, he]
  | some ds =>
    obtain ⟨htake', hdrop'⟩ := (hfraction ds rfl).span hexp
    have hds : ds ≠ [] := (hfraction ds rfl).1
    cases exponent with
    | none =>
      simp only [fractionChars, exponentChars, Option.elim_none, Option.elim_some, List.append_nil,
        List.cons_append] at htake hdrop htake' hdrop'
      cases negative <;>
        simpa [ofChars?, chars, fractionChars, exponentChars, hminus, htake, hdrop, htake', hdrop',
          hds]
    | some e =>
      have he := exponent?_eq (hexponent e rfl)
      simp only [fractionChars, exponentChars, Option.elim_some, List.cons_append]
        at htake hdrop htake' hdrop'
      cases negative <;>
        simpa [ofChars?, chars, fractionChars, exponentChars, hminus, htake, hdrop, htake', hdrop',
          hds, he]

/-- A number begins with its sign or its first digit. -/
theorem Written.exists_cons {n : Number} (hn : n.Written) :
    ∃ c cs, n.chars = c :: cs ∧ (c = '-' ∨ c.isDigit = true) := by
  obtain ⟨c, cs, hwhole, hc⟩ := hn.whole.exists_cons
  rw [chars, hwhole]
  cases n.negative with
  | true => exact ⟨_, _, rfl, .inl rfl⟩
  | false => exact ⟨_, _, rfl, .inr hc⟩

theorem Written.isNumberChar {n : Number} (hn : n.Written) :
    ∀ c ∈ n.chars, Lexer.isNumberChar c = true := by
  have hdigits : ∀ {cs}, IsDigits cs → ∀ c ∈ cs, Lexer.isNumberChar c = true :=
    fun hcs c hc => by simp [Lexer.isNumberChar, hcs.2 c hc]
  intro c hc
  simp only [chars, List.mem_append] at hc
  rcases hc with hc | hc | hc | hc
  · cases hneg : n.negative with
    | true => rw [hneg] at hc; cases List.mem_singleton.1 hc; rfl
    | false => rw [hneg] at hc; cases hc
  · exact hdigits hn.whole c hc
  · cases hf : n.fraction with
    | none => rw [fractionChars, hf] at hc; cases hc
    | some ds =>
      rw [fractionChars, hf] at hc
      rcases List.mem_cons.1 hc with rfl | hc
      · rfl
      · exact hdigits (hn.fraction ds hf) c hc
  · cases he : n.exponent with
    | none => rw [exponentChars, he] at hc; cases hc
    | some e =>
      have he' := hdigits (hn.exponent e he)
      rw [exponentChars, he] at hc
      rcases List.mem_cons.1 hc with rfl | hc
      · rfl
      · split at hc
        · rcases List.mem_cons.1 hc with rfl | hc
          · rfl
          · exact he' c hc
        · exact he' c hc

/-- An integer, in the digits of its absolute value. -/
def ofInt (n : Int) : Number := ⟨n < 0, Text.digitsOf n.natAbs, none, none⟩

theorem chars_ofInt (n : Int) : String.ofList (ofInt n).chars = Text.intText n := by
  by_cases hn : n < 0
  · simp [chars, ofInt, fractionChars, exponentChars, Text.intText, hn]
  · simp [chars, ofInt, fractionChars, exponentChars, Text.intText, hn]

/-- Only zero is written with a zero in front. -/
theorem digitsOf_of_head? {n : Nat} (hn : (Text.digitsOf n).head? = some '0') :
    Text.digitsOf n = ['0'] := by
  induction n using Nat.strongRecOn with
  | _ n ih =>
    by_cases hlt : n < 10
    · rw [Text.digitsOf, Nat.toDigits_of_lt_base hlt] at hn ⊢
      exact congrArg ([·]) (Option.some.inj hn)
    · have hsplit := Nat.toDigits_of_base_le (by decide) (Nat.not_lt.1 hlt)
      have hfront : (Text.digitsOf (n / 10)).head? = some '0' := by
        rw [Text.digitsOf, hsplit, List.head?_append] at hn
        cases hd : Nat.toDigits 10 (n / 10) with
        | nil => exact (Nat.toDigits_ne_nil hd).elim
        | cons d ds => rw [hd] at hn; rw [Text.digitsOf, hd]; exact hn
      have hzero := @Nat.ofDigitChars_ten_toDigits (n / 10)
      have hdigits := ih (n / 10) (by omega) hfront
      rw [Text.digitsOf] at hdigits
      rw [hdigits] at hzero
      have : n / 10 = 0 := hzero.symm
      omega

theorem written_ofInt (n : Int) : (ofInt n).Written where
  whole := ⟨Nat.toDigits_ne_nil, fun _ hc => Nat.isDigit_of_mem_toDigits (by decide) (by decide) hc⟩
  lead := digitsOf_of_head?
  fraction := by simp [ofInt]
  exponent := by simp [ofInt]

theorem le_ofDigitChars (m : Nat) (ds : List Char) : m ≤ Nat.ofDigitChars 10 ds m := by
  induction ds generalizing m with
  | nil => exact Nat.le_refl _
  | cons d ds ih =>
    rw [Nat.ofDigitChars_cons]
    have hle := ih (10 * m + (d.toNat - '0'.toNat))
    omega

/-- Digits are taken in to the last one if what they stand for fits into 64 bits. -/
theorem accumulate_eq {m : Nat} {ds : List Char} (hds : Nat.ofDigitChars 10 ds m < UInt64.size) :
    accumulate m ds = (Nat.ofDigitChars 10 ds m, []) := by
  induction ds generalizing m with
  | nil => rfl
  | cons d ds ih =>
    rw [Nat.ofDigitChars_cons] at hds ⊢
    have hle := le_ofDigitChars (10 * m + digitValue d) ds
    have hlt : 10 * m + digitValue d < UInt64.size := Nat.lt_of_le_of_lt hle hds
    rw [accumulate, if_pos hlt]
    exact ih hds

theorem magnitude?_ofInt {n : Int} (hn : n.natAbs < UInt64.size) :
    (ofInt n).magnitude? = some n.natAbs := by
  have hread := @Nat.ofDigitChars_ten_toDigits n.natAbs
  rw [← hread] at hn
  have haccumulate := accumulate_eq hn
  rw [hread] at haccumulate
  simp [magnitude?, isInteger, ofInt, Text.digitsOf, haccumulate]

/-- A 64-bit integer is read back, its least value included. -/
theorem int64?_ofInt (n : Int64) : (ofInt n.toInt).int64? = some n := by
  have hle := n.le_toInt
  have hlt := n.toInt_lt
  have hfits : n.toInt.natAbs < UInt64.size := by simp only [UInt64.size]; omega
  rw [int64?, magnitude?_ofInt hfits]
  by_cases hneg : n.toInt < 0
  · have hback : (-(n.toInt.natAbs : Int)) = n.toInt := by omega
    have hbound : 0 < n.toInt.natAbs ∧ n.toInt.natAbs ≤ UInt64.size / 2 := by
      simp only [UInt64.size]; omega
    have hsign : (ofInt n.toInt).negative = true := decide_eq_true hneg
    simp only [hsign, hbound, hback, if_true, Bool.and_true, decide_true, Int64.ofInt_toInt]
  · have hback : (n.toInt.natAbs : Int) = n.toInt := by omega
    have hbound : n.toInt.natAbs < UInt64.size / 2 := by simp only [UInt64.size]; omega
    have hn : Int64.ofNat n.toInt.natAbs = n := by
      rw [← Int64.ofInt_eq_ofNat, hback, Int64.ofInt_toInt]
    simp [ofInt, hneg, hbound, hn]

theorem unsigned?_ofInt {m bound : Nat} (hm : m < bound) (hbound : bound ≤ UInt64.size) :
    (ofInt m).unsigned? bound = some m := by
  have hfits : (m : Int).natAbs < UInt64.size := by rw [Int.natAbs_natCast]; omega
  rw [unsigned?, magnitude?_ofInt hfits]
  simp [ofInt, hm]

end ResultCache.Json.Number
