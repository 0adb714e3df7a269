import ResultCache.Text.Utf8

/-!
# Reading what was written as UTF-8

`decodeUtf8_encodeUtf8`: the bytes of a text read back as the text. The proof goes character by
character and follows the four forms of a sequence.
-/
namespace ResultCache.Text

theorem toNat_byte {n : Nat} (hn : n < 256) : (UInt8.ofNat n).toNat = n :=
  UInt8.toNat_ofNat_of_lt' hn

/-- Code points leave out the surrogates and end at `0x10ffff`. -/
theorem val_toNat_bounds (c : Char) :
    c.val.toNat < 0xd800 ∨ 0xdfff < c.val.toNat ∧ c.val.toNat < 0x110000 := c.valid

theorem sequenceLength_one {n : Nat} (hn : n < 128) : sequenceLength (UInt8.ofNat n) = 1 := by
  have hb : (UInt8.ofNat n).toNat = n := toNat_byte (by omega)
  simp [sequenceLength, UInt8.lt_iff_toNat_lt, hb, hn]

theorem sequenceLength_two {n : Nat} (lo : 0xc2 ≤ n) (hi : n ≤ 0xdf) :
    sequenceLength (UInt8.ofNat n) = 2 := by
  have hb : (UInt8.ofNat n).toNat = n := toNat_byte (by omega)
  simp only [sequenceLength, UInt8.lt_iff_toNat_lt, UInt8.le_iff_toNat_le, hb]
  rw [if_neg (by simp; omega), if_pos (by simp; omega)]

theorem sequenceLength_three {n : Nat} (lo : 0xe0 ≤ n) (hi : n ≤ 0xef) :
    sequenceLength (UInt8.ofNat n) = 3 := by
  have hb : (UInt8.ofNat n).toNat = n := toNat_byte (by omega)
  simp only [sequenceLength, UInt8.lt_iff_toNat_lt, UInt8.le_iff_toNat_le, hb]
  rw [if_neg (by simp; omega), if_neg (by simp; omega), if_pos (by simp; omega)]

theorem sequenceLength_four {n : Nat} (lo : 0xf0 ≤ n) (hi : n ≤ 0xf4) :
    sequenceLength (UInt8.ofNat n) = 4 := by
  have hb : (UInt8.ofNat n).toNat = n := toNat_byte (by omega)
  simp only [sequenceLength, UInt8.lt_iff_toNat_lt, UInt8.le_iff_toNat_le, hb]
  rw [if_neg (by simp; omega), if_neg (by simp; omega), if_neg (by simp; omega),
    if_pos (by simp; omega)]

theorem isTail_byte {n : Nat} (hn : n < 64) : isTail (UInt8.ofNat (n + 128)) = true := by
  have hb : (UInt8.ofNat (n + 128)).toNat = n + 128 := toNat_byte (by omega)
  simp only [isTail, UInt8.le_iff_toNat_le, hb, Bool.and_eq_true, decide_eq_true_eq]
  constructor
  · simp
  · simp
    omega

/-- The second byte of the form of three bytes, for a code point that needs it. -/
theorem mayFollow_three {v : Nat} (lo : 0x7ff < v) (hi : v ≤ 0xffff)
    (hv : v < 0xd800 ∨ 0xdfff < v) :
    mayFollow (UInt8.ofNat (v / 4096 % 16 + 224)) (UInt8.ofNat (v / 64 % 64 + 128)) = true := by
  have hb : (UInt8.ofNat (v / 4096 % 16 + 224)).toNat = v / 4096 % 16 + 224 :=
    toNat_byte (by omega)
  have hc : (UInt8.ofNat (v / 64 % 64 + 128)).toNat = v / 64 % 64 + 128 := toNat_byte (by omega)
  have ht : isTail (UInt8.ofNat (v / 64 % 64 + 128)) = true := isTail_byte (by omega)
  simp only [mayFollow, ← UInt8.toNat_inj, UInt8.le_iff_toNat_le, hb, hc, ht]
  simp only [UInt8.reduceToNat]
  split
  · simp; omega
  · split
    · simp; omega
    · rw [if_neg (by omega), if_neg (by omega)]

/-- The second byte of the form of four bytes, for a code point that needs it. -/
theorem mayFollow_four {v : Nat} (lo : 0xffff < v) (hi : v < 0x110000) :
    mayFollow (UInt8.ofNat (v / 262144 % 8 + 240)) (UInt8.ofNat (v / 4096 % 64 + 128)) = true := by
  have hb : (UInt8.ofNat (v / 262144 % 8 + 240)).toNat = v / 262144 % 8 + 240 :=
    toNat_byte (by omega)
  have hc : (UInt8.ofNat (v / 4096 % 64 + 128)).toNat = v / 4096 % 64 + 128 :=
    toNat_byte (by omega)
  have ht : isTail (UInt8.ofNat (v / 4096 % 64 + 128)) = true := isTail_byte (by omega)
  simp only [mayFollow, ← UInt8.toNat_inj, UInt8.le_iff_toNat_le, hb, hc, ht]
  simp only [UInt8.reduceToNat]
  rw [if_neg (by omega), if_neg (by omega)]
  split
  · simp; omega
  · split
    · simp; omega
    · rfl

theorem decodeUtf8From_one (i : Nat) {v : Nat} (hi : v ≤ 0x7f) (rest : List UInt8) :
    decodeUtf8From i (UInt8.ofNat v :: rest) =
      (Char.ofNat v :: ·) <$> decodeUtf8From (i + 1) rest := by
  have hb : (UInt8.ofNat v).toNat = v := toNat_byte (by omega)
  rw [decodeUtf8From.eq_def i (_ :: _)]
  simp only [sequenceLength_one (show v < 128 by omega), joined, List.foldl_nil, hb]

theorem decodeUtf8From_two (i : Nat) {v : Nat} (lo : 0x7f < v) (hi : v ≤ 0x7ff)
    (rest : List UInt8) :
    decodeUtf8From i (UInt8.ofNat (v / 64 % 32 + 192) :: UInt8.ofNat (v % 64 + 128) :: rest) =
      (Char.ofNat v :: ·) <$> decodeUtf8From (i + 2) rest := by
  have hb : (UInt8.ofNat (v / 64 % 32 + 192)).toNat = v / 64 % 32 + 192 := toNat_byte (by omega)
  have hc : (UInt8.ofNat (v % 64 + 128)).toNat = v % 64 + 128 := toNat_byte (by omega)
  have hl := sequenceLength_two (show 0xc2 ≤ v / 64 % 32 + 192 by omega) (by omega)
  have ht := isTail_byte (show v % 64 < 64 by omega)
  have hj : (v / 64 % 32 + 192) % 32 * 64 + (v % 64 + 128) % 64 = v := by omega
  rw [decodeUtf8From.eq_def i (_ :: _)]
  simp only [hl, ht, if_true, joined, List.foldl_cons, List.foldl_nil, hb, hc, hj]

theorem decodeUtf8From_three (i : Nat) {v : Nat} (lo : 0x7ff < v) (hi : v ≤ 0xffff)
    (hv : v < 0xd800 ∨ 0xdfff < v) (rest : List UInt8) :
    decodeUtf8From i (UInt8.ofNat (v / 4096 % 16 + 224) :: UInt8.ofNat (v / 64 % 64 + 128) ::
        UInt8.ofNat (v % 64 + 128) :: rest) =
      (Char.ofNat v :: ·) <$> decodeUtf8From (i + 3) rest := by
  have hb : (UInt8.ofNat (v / 4096 % 16 + 224)).toNat = v / 4096 % 16 + 224 :=
    toNat_byte (by omega)
  have hc : (UInt8.ofNat (v / 64 % 64 + 128)).toNat = v / 64 % 64 + 128 := toNat_byte (by omega)
  have hd : (UInt8.ofNat (v % 64 + 128)).toNat = v % 64 + 128 := toNat_byte (by omega)
  have hl := sequenceLength_three (show 0xe0 ≤ v / 4096 % 16 + 224 by omega) (by omega)
  have hf := mayFollow_three lo hi hv
  have ht := isTail_byte (show v % 64 < 64 by omega)
  have hj : ((v / 4096 % 16 + 224) % 16 * 64 + (v / 64 % 64 + 128) % 64) * 64 +
      (v % 64 + 128) % 64 = v := by omega
  rw [decodeUtf8From.eq_def i (_ :: _)]
  simp only [hl, hf, ht, if_true, joined, List.foldl_cons, List.foldl_nil, hb, hc, hd, hj]

theorem decodeUtf8From_four (i : Nat) {v : Nat} (lo : 0xffff < v) (hi : v < 0x110000)
    (rest : List UInt8) :
    decodeUtf8From i (UInt8.ofNat (v / 262144 % 8 + 240) :: UInt8.ofNat (v / 4096 % 64 + 128) ::
        UInt8.ofNat (v / 64 % 64 + 128) :: UInt8.ofNat (v % 64 + 128) :: rest) =
      (Char.ofNat v :: ·) <$> decodeUtf8From (i + 4) rest := by
  have hb : (UInt8.ofNat (v / 262144 % 8 + 240)).toNat = v / 262144 % 8 + 240 :=
    toNat_byte (by omega)
  have hc : (UInt8.ofNat (v / 4096 % 64 + 128)).toNat = v / 4096 % 64 + 128 :=
    toNat_byte (by omega)
  have hd : (UInt8.ofNat (v / 64 % 64 + 128)).toNat = v / 64 % 64 + 128 := toNat_byte (by omega)
  have he : (UInt8.ofNat (v % 64 + 128)).toNat = v % 64 + 128 := toNat_byte (by omega)
  have hl := sequenceLength_four (show 0xf0 ≤ v / 262144 % 8 + 240 by omega) (by omega)
  have hf := mayFollow_four lo hi
  have ht := isTail_byte (show v / 64 % 64 < 64 by omega)
  have hu := isTail_byte (show v % 64 < 64 by omega)
  have hj : (((v / 262144 % 8 + 240) % 8 * 64 + (v / 4096 % 64 + 128) % 64) * 64 +
      (v / 64 % 64 + 128) % 64) * 64 + (v % 64 + 128) % 64 = v := by omega
  rw [decodeUtf8From.eq_def i (_ :: _)]
  simp only [hl, hf, ht, hu, if_true, joined, List.foldl_cons, List.foldl_nil, hb, hc, hd, he, hj]

/-- A sequence reads back as its character, whatever follows it. -/
theorem decodeUtf8From_char (i : Nat) (c : Char) (rest : List UInt8) :
    decodeUtf8From i (String.utf8EncodeChar c ++ rest) =
      (c :: ·) <$> decodeUtf8From (i + (String.utf8EncodeChar c).length) rest := by
  have hbounds := val_toNat_bounds c
  have hchar : Char.ofNat c.val.toNat = c := Char.ofNat_toNat c
  simp only [String.utf8EncodeChar]
  split
  · rename_i h1
    have h := decodeUtf8From_one i h1 rest
    rwa [hchar] at h
  · split
    · rename_i h1 h2
      have h := decodeUtf8From_two i (Nat.lt_of_not_le h1) h2 rest
      rwa [hchar] at h
    · split
      · rename_i h1 h2 h3
        have h := decodeUtf8From_three i (Nat.lt_of_not_le h2) h3 (by omega) rest
        rwa [hchar] at h
      · rename_i h1 h2 h3
        have h := decodeUtf8From_four i (Nat.lt_of_not_le h3) (by omega) rest
        rwa [hchar] at h

theorem decodeUtf8From_chars (i : Nat) (cs : List Char) :
    decodeUtf8From i (cs.flatMap String.utf8EncodeChar) = .ok cs := by
  induction cs generalizing i with
  | nil => rfl
  | cons c cs ih =>
    rw [List.flatMap_cons, decodeUtf8From_char, ih]
    rfl

/-- The bytes of a text read back as the text. -/
theorem decodeUtf8_encodeUtf8 (s : String) : decodeUtf8 (encodeUtf8 s) = .ok s := by
  rw [decodeUtf8, encodeUtf8, decodeUtf8From_chars]
  simp [Functor.map, Except.map]

end ResultCache.Text
