/-!
# UTF-8

Texts as bytes. `encodeUtf8` writes each character in the shortest of the four forms, `decodeUtf8`
reads exactly such bytes and otherwise tells where the first broken sequence begins and how many of
its bytes could belong to a character, or that the bytes end in the middle of one.
-/
namespace ResultCache.Text

/-- The first place at which bytes are not UTF-8. -/
structure Utf8Error where
  /-- the index of the first byte of the broken sequence -/
  index : Nat
  /-- how many bytes are broken; none if the bytes end before the sequence does -/
  length : Option Nat
  deriving DecidableEq, Repr

def Utf8Error.message (e : Utf8Error) : String :=
  match e.length with
  | some n => s!"invalid utf-8 sequence of {n} bytes from index {e.index}"
  | none => s!"incomplete utf-8 byte sequence from index {e.index}"

def encodeUtf8 (s : String) : List UInt8 := s.toList.flatMap String.utf8EncodeChar

/-- How many bytes the sequence that starts with `b` has; zero if none starts so. -/
def sequenceLength (b : UInt8) : Nat :=
  if b < 0x80 then 1
  else if 0xc2 ≤ b ∧ b ≤ 0xdf then 2
  else if 0xe0 ≤ b ∧ b ≤ 0xef then 3
  else if 0xf0 ≤ b ∧ b ≤ 0xf4 then 4
  else 0

def isTail (b : UInt8) : Bool := 0x80 ≤ b && b ≤ 0xbf

/-- Whether `c` may follow `b` as second byte of a sequence of three or four: overlong forms,
surrogates and code points beyond the last one are excluded here. -/
def mayFollow (b c : UInt8) : Bool :=
  if b = 0xe0 then 0xa0 ≤ c && c ≤ 0xbf
  else if b = 0xed then 0x80 ≤ c && c ≤ 0x9f
  else if b = 0xf0 then 0x90 ≤ c && c ≤ 0xbf
  else if b = 0xf4 then 0x80 ≤ c && c ≤ 0x8f
  else isTail c

/-- The character of a sequence: the low bits of its first byte and six bits of each other one. -/
def joined (lead : Nat) (tail : List UInt8) : Char :=
  Char.ofNat (tail.foldl (fun n b => n * 64 + b.toNat % 64) lead)

/-- Reads the bytes from index `i` on. -/
def decodeUtf8From (i : Nat) : List UInt8 → Except Utf8Error (List Char)
  | [] => .ok []
  | b :: rest =>
    match sequenceLength b with
    | 1 => (joined b.toNat [] :: ·) <$> decodeUtf8From (i + 1) rest
    | 2 =>
      match rest with
      | [] => .error ⟨i, none⟩
      | c :: rest =>
        if isTail c then (joined (b.toNat % 32) [c] :: ·) <$> decodeUtf8From (i + 2) rest
        else .error ⟨i, some 1⟩
    | 3 =>
      match rest with
      | [] => .error ⟨i, none⟩
      | c :: rest =>
        if mayFollow b c then
          match rest with
          | [] => .error ⟨i, none⟩
          | d :: rest =>
            if isTail d then
              (joined (b.toNat % 16) [c, d] :: ·) <$> decodeUtf8From (i + 3) rest
            else .error ⟨i, some 2⟩
        else .error ⟨i, some 1⟩
    | 4 =>
      match rest with
      | [] => .error ⟨i, none⟩
      | c :: rest =>
        if mayFollow b c then
          match rest with
          | [] => .error ⟨i, none⟩
          | d :: rest =>
            if isTail d then
              match rest with
              | [] => .error ⟨i, none⟩
              | e :: rest =>
                if isTail e then
                  (joined (b.toNat % 8) [c, d, e] :: ·) <$> decodeUtf8From (i + 4) rest
                else .error ⟨i, some 3⟩
            else .error ⟨i, some 2⟩
        else .error ⟨i, some 1⟩
    | _ => .error ⟨i, some 1⟩

def decodeUtf8 (bs : List UInt8) : Except Utf8Error String :=
  String.ofList <$> decodeUtf8From 0 bs

end ResultCache.Text
