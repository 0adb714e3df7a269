import ResultCache.Proofs.Text.Utf8

/-!
# UTF-8 has one form for each text

Bytes that are read as a text are the bytes of that text (`encodeUtf8_of_decodeUtf8`): the reader
refuses longer forms of a character, surrogates and code points past the last one, so each of the
four forms it accepts is the one that the writer uses.

Names are in the order of their bytes exactly if they are in the order of their code points
(`encodeUtf8_lt_iff`). A longer form has a larger first byte, and within one form the bytes are the
digits of the code point, the high ones first.
-/
namespace ResultCache.Text

section Forms

variable {b c d e : UInt8}

theorem bounds_one (h : sequenceLength b = 1) : b.toNat ≤ 0x7f := by
  simp only [sequenceLength, UInt8.lt_iff_toNat_lt, UInt8.le_iff_toNat_le, UInt8.reduceToNat] at h
  split at h
  · omega
  · repeat' split at h
    all_goals omega

theorem bounds_two (h : sequenceLength b = 2) : 0xc2 ≤ b.toNat ∧ b.toNat ≤ 0xdf := by
  simp only [sequenceLength, UInt8.lt_iff_toNat_lt, UInt8.le_iff_toNat_le, UInt8.reduceToNat] at h
  repeat' split at h
  all_goals omega

theorem bounds_three (h : sequenceLength b = 3) : 0xe0 ≤ b.toNat ∧ b.toNat ≤ 0xef := by
  simp only [sequenceLength, UInt8.lt_iff_toNat_lt, UInt8.le_iff_toNat_le, UInt8.reduceToNat] at h
  repeat' split at h
  all_goals omega

theorem bounds_four (h : sequenceLength b = 4) : 0xf0 ≤ b.toNat ∧ b.toNat ≤ 0xf4 := by
  simp only [sequenceLength, UInt8.lt_iff_toNat_lt, UInt8.le_iff_toNat_le, UInt8.reduceToNat] at h
  repeat' split at h
  all_goals omega

theorem bounds_tail (h : isTail c = true) : 0x80 ≤ c.toNat ∧ c.toNat ≤ 0xbf := by
  simpa [isTail, UInt8.le_iff_toNat_le] using h

/-- A second byte is a tail byte; after the least first bytes of a form it is not too small, and
after the first bytes before the surrogates and of the last form it is not too large. -/
theorem bounds_second (h : mayFollow b c = true) : 0x80 ≤ c.toNat ∧ c.toNat ≤ 0xbf ∧
    (b.toNat = 0xe0 → 0xa0 ≤ c.toNat) ∧ (b.toNat = 0xed → c.toNat ≤ 0x9f) ∧
    (b.toNat = 0xf0 → 0x90 ≤ c.toNat) ∧ (b.toNat = 0xf4 → c.toNat ≤ 0x8f) := by
  simp only [mayFollow, isTail, UInt8.le_iff_toNat_le, ← UInt8.toNat_inj, UInt8.reduceToNat] at h
  repeat' split at h
  all_goals
    simp only [Bool.and_eq_true, decide_eq_true_eq] at h
    omega

end Forms

section Written

/-- The number of a character that is made from a code point. -/
theorem val_ofNat {v : Nat} (hv : v < 0xd800 ∨ 0xdfff < v ∧ v < 0x110000) :
    (Char.ofNat v).val.toNat = v := by
  rw [Char.ofNat, dif_pos hv]
  rfl

variable {x : Char} {v : Nat}

theorem written_one (hx : x.val.toNat = v) (hi : v ≤ 0x7f) :
    String.utf8EncodeChar x = [UInt8.ofNat v] := by
  subst hx
  simp only [String.utf8EncodeChar]
  rw [if_pos hi]

theorem written_two (hx : x.val.toNat = v) (lo : 0x7f < v) (hi : v ≤ 0x7ff) :
    String.utf8EncodeChar x = [UInt8.ofNat (v / 64 % 32 + 192), UInt8.ofNat (v % 64 + 128)] := by
  subst hx
  simp only [String.utf8EncodeChar]
  rw [if_neg (by omega), if_pos hi]

theorem written_three (hx : x.val.toNat = v) (lo : 0x7ff < v) (hi : v ≤ 0xffff) :
    String.utf8EncodeChar x = [UInt8.ofNat (v / 4096 % 16 + 224), UInt8.ofNat (v / 64 % 64 + 128),
      UInt8.ofNat (v % 64 + 128)] := by
  subst hx
  simp only [String.utf8EncodeChar]
  rw [if_neg (by omega), if_neg (by omega), if_pos hi]

theorem written_four (hx : x.val.toNat = v) (lo : 0xffff < v) :
    String.utf8EncodeChar x = [UInt8.ofNat (v / 262144 % 8 + 240),
      UInt8.ofNat (v / 4096 % 64 + 128), UInt8.ofNat (v / 64 % 64 + 128),
      UInt8.ofNat (v % 64 + 128)] := by
  subst hx
  simp only [String.utf8EncodeChar]
  rw [if_neg (by omega), if_neg (by omega), if_neg (by omega)]

end Written

section Read

variable {b c d e : UInt8}

theorem utf8EncodeChar_one (hb : sequenceLength b = 1) :
    String.utf8EncodeChar (joined b.toNat []) = [b] := by
  have hb := bounds_one hb
  rw [joined, List.foldl_nil, written_one (val_ofNat (by omega)) hb, UInt8.ofNat_toNat]

theorem utf8EncodeChar_two (hb : sequenceLength b = 2) (hc : isTail c = true) :
    String.utf8EncodeChar (joined (b.toNat % 32) [c]) = [b, c] := by
  have hb := bounds_two hb
  have hc := bounds_tail hc
  obtain ⟨v, hv⟩ : ∃ v, v = b.toNat % 32 * 64 + c.toNat % 64 := ⟨_, rfl⟩
  have hb' : v / 64 % 32 + 192 = b.toNat := by omega
  have hc' : v % 64 + 128 = c.toNat := by omega
  rw [joined, List.foldl_cons, List.foldl_nil, ← hv,
    written_two (val_ofNat (by omega)) (by omega) (by omega), hb', hc', UInt8.ofNat_toNat,
    UInt8.ofNat_toNat]

theorem utf8EncodeChar_three (hb : sequenceLength b = 3) (hc : mayFollow b c = true)
    (hd : isTail d = true) :
    String.utf8EncodeChar (joined (b.toNat % 16) [c, d]) = [b, c, d] := by
  have hb := bounds_three hb
  have hc := bounds_second hc
  have hd := bounds_tail hd
  obtain ⟨v, hv⟩ : ∃ v, v = (b.toNat % 16 * 64 + c.toNat % 64) * 64 + d.toNat % 64 := ⟨_, rfl⟩
  have hb' : v / 4096 % 16 + 224 = b.toNat := by omega
  have hc' : v / 64 % 64 + 128 = c.toNat := by omega
  have hd' : v % 64 + 128 = d.toNat := by omega
  rw [joined, List.foldl_cons, List.foldl_cons, List.foldl_nil, ← hv,
    written_three (val_ofNat (by omega)) (by omega) (by omega), hb', hc', hd', UInt8.ofNat_toNat,
    UInt8.ofNat_toNat, UInt8.ofNat_toNat]

theorem utf8EncodeChar_four (hb : sequenceLength b = 4) (hc : mayFollow b c = true)
    (hd : isTail d = true) (he : isTail e = true) :
    String.utf8EncodeChar (joined (b.toNat % 8) [c, d, e]) = [b, c, d, e] := by
  have hb := bounds_four hb
  have hc := bounds_second hc
  have hd := bounds_tail hd
  have he := bounds_tail he
  obtain ⟨v, hv⟩ : ∃ v, v = ((b.toNat % 8 * 64 + c.toNat % 64) * 64 + d.toNat % 64) * 64 +
    e.toNat % 64 := ⟨_, rfl⟩
  have hb' : v / 262144 % 8 + 240 = b.toNat := by omega
  have hc' : v / 4096 % 64 + 128 = c.toNat := by omega
  have hd' : v / 64 % 64 + 128 = d.toNat := by omega
  have he' : v % 64 + 128 = e.toNat := by omega
  rw [joined, List.foldl_cons, List.foldl_cons, List.foldl_cons, List.foldl_nil, ← hv,
    written_four (val_ofNat (by omega)) (by omega), hb', hc', hd', he', UInt8.ofNat_toNat,
    UInt8.ofNat_toNat, UInt8.ofNat_toNat, UInt8.ofNat_toNat]

end Read

/-- What is read begins with the character of the first sequence. -/
theorem decoded_cons {x : Char} {r : Except Utf8Error (List Char)} {cs : List Char}
    (h : (x :: ·) <$> r = .ok cs) : ∃ ds, r = .ok ds ∧ cs = x :: ds := by
  cases r with
  | error e => cases h
  | ok ds => cases h; exact ⟨ds, rfl, rfl⟩

/-- Bytes that are read as characters are the bytes of these characters. -/
theorem flatMap_utf8_of_decodeUtf8From {i : Nat} {bs : List UInt8} {cs : List Char}
    (h : decodeUtf8From i bs = .ok cs) : cs.flatMap String.utf8EncodeChar = bs := by
  induction i, bs using decodeUtf8From.induct generalizing cs with
  | case1 => cases h; rfl
  | case2 i b rest hb ih =>
    rw [decodeUtf8From.eq_def] at h
    simp only [hb] at h
    obtain ⟨ds, hds, rfl⟩ := decoded_cons h
    rw [List.flatMap_cons, utf8EncodeChar_one hb, ih hds]
    rfl
  | case4 i b hb c rest hc ih =>
    rw [decodeUtf8From.eq_def] at h
    simp only [hb, hc, if_true] at h
    obtain ⟨ds, hds, rfl⟩ := decoded_cons h
    rw [List.flatMap_cons, utf8EncodeChar_two hb hc, ih hds]
    rfl
  | case8 i b hb c hc d rest hd ih =>
    rw [decodeUtf8From.eq_def] at h
    simp only [hb, hc, hd, if_true] at h
    obtain ⟨ds, hds, rfl⟩ := decoded_cons h
    rw [List.flatMap_cons, utf8EncodeChar_three hb hc hd, ih hds]
    rfl
  | case14 i b hb c hc d hd e rest he ih =>
    rw [decodeUtf8From.eq_def] at h
    simp only [hb, hc, hd, he, if_true] at h
    obtain ⟨ds, hds, rfl⟩ := decoded_cons h
    rw [List.flatMap_cons, utf8EncodeChar_four hb hc hd he, ih hds]
    rfl
  | _ =>
    -- every other way out of the reader is a refusal
    rw [decodeUtf8From.eq_def] at h
    simp_all

/-- Bytes that are read as a text are the bytes of the text. -/
theorem encodeUtf8_of_decodeUtf8 {bs : List UInt8} {s : String} (h : decodeUtf8 bs = .ok s) :
    encodeUtf8 s = bs := by
  rw [decodeUtf8] at h
  cases hcs : decodeUtf8From 0 bs with
  | error e => rw [hcs] at h; cases h
  | ok cs =>
    rw [hcs] at h
    cases h
    rw [encodeUtf8, String.toList_ofList]
    exact flatMap_utf8_of_decodeUtf8From hcs

/-- A smaller character has smaller bytes, and differs from a larger one before its bytes end. -/
theorem utf8EncodeChar_append_lt {x y : Char} (hxy : x < y) (bs cs : List UInt8) :
    String.utf8EncodeChar x ++ bs < String.utf8EncodeChar y ++ cs := by
  have hlt : x.val.toNat < y.val.toNat := UInt32.lt_iff_toNat_lt.1 hxy
  have hx := val_toNat_bounds x
  have hy := val_toNat_bounds y
  simp only [String.utf8EncodeChar]
  generalize x.val.toNat = v at *
  generalize y.val.toNat = w at *
  -- all digits of a code point from the digits below them
  have hdiv : ∀ n : Nat, n / 4096 = n / 64 / 64 ∧ n / 262144 = n / 64 / 64 / 64 := by
    intro n
    omega
  simp only [hdiv]
  repeat' split
  all_goals
    simp (disch := omega) only [List.cons_append, List.nil_append, List.cons_lt_cons_iff,
      UInt8.lt_iff_toNat_lt, ← UInt8.toNat_inj, toNat_byte]
    omega

theorem flatMap_utf8_lt {cs ds : List Char} (h : cs < ds) :
    cs.flatMap String.utf8EncodeChar < ds.flatMap String.utf8EncodeChar := by
  induction cs generalizing ds with
  | nil =>
    cases ds with
    | nil => exact absurd h (List.lt_irrefl [])
    | cons y ds =>
      obtain ⟨b, bs, hy⟩ : ∃ b bs, String.utf8EncodeChar y = b :: bs := by
        simp only [String.utf8EncodeChar]
        repeat' split
        all_goals exact ⟨_, _, rfl⟩
      rw [List.flatMap_cons, hy]
      exact List.nil_lt_cons _ _
  | cons x cs ih =>
    cases ds with
    | nil => exact absurd h (List.not_lt_nil _)
    | cons y ds =>
      rw [List.flatMap_cons, List.flatMap_cons]
      rcases List.cons_lt_cons_iff.1 h with hxy | ⟨rfl, hlt⟩
      · exact utf8EncodeChar_append_lt hxy _ _
      · exact List.append_left_lt (ih hlt)

/-- The order of texts is the order of their bytes. -/
theorem encodeUtf8_lt_iff {s t : String} : encodeUtf8 s < encodeUtf8 t ↔ s < t := by
  rw [String.lt_iff]
  refine ⟨fun h => ?_, flatMap_utf8_lt⟩
  rcases Std.lt_trichotomy s.toList t.toList with hlt | heq | hgt
  · exact hlt
  · rw [encodeUtf8, encodeUtf8, heq] at h
    exact absurd h (List.lt_irrefl _)
  · exact absurd (flatMap_utf8_lt hgt) (List.lt_asymm h)

end ResultCache.Text
