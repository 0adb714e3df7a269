import ResultCache.Text.Utf8
import ResultCache.Value.Outline

/-!
# Values as bytes

The encoding of values: numbers are little endian, a value is the number of its kind in four bytes
and then its content, and lengths and counts take eight bytes. An object that leads back to itself
is written as an object without properties there.

Decoding reads a frozen value from the front of the bytes and ignores what follows. Of a repeated
property the last one counts. A `DecodeFault` says what is wrong with bytes that hold no value.
-/
namespace ResultCache

/-- Of a chain of two steps that returns, both return. -/
theorem bind_eq_ok {ε α β : Type} {x : Except ε α} {f : α → Except ε β} {b : β} :
    (x >>= f) = .ok b ↔ ∃ a, x = .ok a ∧ f a = .ok b := by
  cases x <;> simp [bind, Except.bind]

inductive DecodeFault where
  /-- the bytes end inside a number or a byte string -/
  | truncated
  /-- the bytes end inside a text -/
  | truncatedText
  | unknownKind (k : Nat)
  | notBool (b : UInt8)
  | notText (e : Text.Utf8Error)
  deriving DecidableEq, Repr

def DecodeFault.message : DecodeFault → String
  | .truncated => "io error: unexpected end of file"
  | .truncatedText => "io error: "
  | .unknownKind k => s!"invalid value: integer \x60{k}\x60, expected variant index 0 <= i < 8"
  | .notBool b => s!"invalid u8 while decoding bool, expected 0 or 1, found {b.toNat}"
  | .notText e => "string is not valid utf8: " ++ e.message

namespace Bytes

/-- The low `n` bytes of a number, lowest first. -/
def ofNat : Nat → Nat → List UInt8
  | 0, _ => []
  | n + 1, v => UInt8.ofNat v :: ofNat n (v / 256)

def ofText (s : String) : List UInt8 :=
  let bs := Text.encodeUtf8 s
  ofNat 8 bs.length ++ bs

/-- The number in the next `n` bytes, and the bytes after it. -/
def takeNat : Nat → List UInt8 → Except DecodeFault (Nat × List UInt8)
  | 0, bs => .ok (0, bs)
  | _ + 1, [] => .error .truncated
  | n + 1, b :: bs => do
    let (v, rest) ← takeNat n bs
    .ok (b.toNat + 256 * v, rest)

/-- A byte string after its length. -/
def takeBytes (bs : List UInt8) : Except DecodeFault (List UInt8 × List UInt8) := do
  let (n, bs) ← takeNat 8 bs
  if bs.length < n then .error .truncated else .ok (bs.take n, bs.drop n)

/-- A text after the number of its bytes. -/
def takeText (bs : List UInt8) : Except DecodeFault (String × List UInt8) := do
  let (n, bs) ← takeNat 8 bs
  if bs.length < n then .error .truncatedText
  else
    match Text.decodeUtf8 (bs.take n) with
    | .ok s => .ok (s, bs.drop n)
    | .error e => .error (.notText e)

end Bytes

namespace Outline

open Bytes

mutual

/-- The bytes of a value. -/
def encode : Outline → List UInt8
  | .null => ofNat 4 0
  | .bool b => ofNat 4 1 ++ [if b then 1 else 0]
  | .int n => ofNat 4 2 ++ ofNat 8 n.toUInt64.toNat
  | .float bits => ofNat 4 3 ++ ofNat 8 bits.toNat
  | .text s => ofNat 4 4 ++ ofText s
  | .bytes bs => ofNat 4 5 ++ ofNat 8 bs.length ++ bs
  | .list ls => ofNat 4 6 ++ ofNat 8 ls.length ++ encodeAll ls
  | .object props => ofNat 4 7 ++ ofNat 8 props.length ++ encodeProps props
  | .ref _ => ofNat 4 7 ++ ofNat 8 0

def encodeAll : List Outline → List UInt8
  | [] => []
  | l :: ls => encode l ++ encodeAll ls

def encodeProps : List (String × Outline) → List UInt8
  | [] => []
  | (name, l) :: props => ofText name ++ encode l ++ encodeProps props

end

end Outline

/-- The bytes of a list of values: their number, then each of them. -/
def Heap.encodeRows (h : Heap) (vs : List Value) : List UInt8 :=
  Bytes.ofNat 8 vs.length ++ Outline.encodeAll (vs.map h.outline)

namespace Frozen

open Bytes

/-- Reads `n` things one after the other. -/
def takeMany {α : Type} (take : List UInt8 → Except DecodeFault (α × List UInt8)) :
    Nat → List UInt8 → Except DecodeFault (List α × List UInt8)
  | 0, bs => .ok ([], bs)
  | n + 1, bs => do
    let (a, bs) ← take bs
    let (as, bs) ← takeMany take n bs
    .ok (a :: as, bs)

/-- A name and the value that `take` reads after it. -/
def takeProp (take : List UInt8 → Except DecodeFault (Frozen × List UInt8)) (bs : List UInt8) :
    Except DecodeFault ((String × Frozen) × List UInt8) := do
  let (name, bs) ← takeText bs
  let (f, bs) ← take bs
  .ok ((name, f), bs)

/-- The value at the front of the bytes, where values nest less than `depth` deep. -/
def take : Nat → List UInt8 → Except DecodeFault (Frozen × List UInt8)
  | 0, _ => .error .truncated
  | depth + 1, bs => do
    let (kind, bs) ← takeNat 4 bs
    match kind with
    | 0 => .ok (.null, bs)
    | 1 =>
      match bs with
      | [] => .error .truncated
      | b :: bs =>
        if b = 0 then .ok (.bool false, bs)
        else if b = 1 then .ok (.bool true, bs)
        else .error (.notBool b)
    | 2 => do
      let (n, bs) ← takeNat 8 bs
      .ok (.int (UInt64.ofNat n).toInt64, bs)
    | 3 => do
      let (n, bs) ← takeNat 8 bs
      .ok (.float (UInt64.ofNat n), bs)
    | 4 => do
      let (s, bs) ← takeText bs
      .ok (.text s, bs)
    | 5 => do
      let (b, bs) ← takeBytes bs
      .ok (.bytes b, bs)
    | 6 => do
      let (n, bs) ← takeNat 8 bs
      let (fs, bs) ← takeMany (take depth) n bs
      .ok (.list fs, bs)
    | 7 => do
      let (n, bs) ← takeNat 8 bs
      let (ps, bs) ← takeMany (takeProp (take depth)) n bs
      .ok (.object (NameMap.ofList ps).entries, bs)
    | k => .error (.unknownKind k)

/-- The list of values at the front of the bytes, and the bytes after it. Each value takes four
bytes or more, so values never nest deeper than there are bytes. -/
def takeRows (bs : List UInt8) : Except DecodeFault (List Frozen × List UInt8) := do
  let (n, rest) ← takeNat 8 bs
  takeMany (take (bs.length + 1)) n rest

/-- The list of values that the bytes begin with. -/
def decodeRows (bs : List UInt8) : Except DecodeFault (List Frozen) :=
  Prod.fst <$> takeRows bs

end Frozen
end ResultCache
