import ResultCache.Proofs.Text.Canonical
import ResultCache.Proofs.Value.Truncation

/-!
# What bytes spell out

Bytes need not come from the encoder: the properties of an object may be listed in any order, and a
name may be listed twice. Bytes that hold rows spell out values all the same (`Outline.Written`),
and the decoder makes of them what they spell out with the properties of each object put in order,
the last one of a name for all of that name (`Outline.normal`).

The decoder reads nothing but spellings (`Frozen.exists_spelledBy`), and bytes are the spelling of
one list of values at most (`Outline.SpelledBy.unique`).
-/
namespace ResultCache

namespace Bytes

theorem takeNat_eq_ok {n v : Nat} {bs rest : List UInt8} (h : takeNat n bs = .ok (v, rest)) :
    bs = ofNat n v ++ rest ∧ v < 256 ^ n := by
  induction n generalizing bs v with
  | zero => cases h; exact ⟨rfl, by simp⟩
  | succ n ih =>
    cases bs with
    | nil => cases h
    | cons b bs =>
      obtain ⟨⟨w, rest'⟩, hw, h⟩ := bind_eq_ok.1 h
      cases h
      obtain ⟨rfl, hlt⟩ := ih hw
      have hb : b.toNat < 256 := b.toNat_lt
      have hlow : UInt8.ofNat (b.toNat + 256 * w) = b := by
        rw [← UInt8.toNat_inj, UInt8.toNat_ofNat']
        omega
      have hhigh : (b.toNat + 256 * w) / 256 = w := by omega
      rw [ofNat, hlow, hhigh, Nat.pow_succ]
      exact ⟨rfl, by omega⟩

/-- Bytes that begin with a number begin with no other of as many bytes. -/
theorem ofNat_append_inj {n v w : Nat} {r s : List UInt8} (hv : v < 256 ^ n) (hw : w < 256 ^ n)
    (h : ofNat n v ++ r = ofNat n w ++ s) : v = w ∧ r = s := by
  have hread := takeNat_ofNat n v r
  rw [h, takeNat_ofNat, Nat.mod_eq_of_lt hv, Nat.mod_eq_of_lt hw] at hread
  cases hread
  exact ⟨rfl, rfl⟩

theorem takeText_eq_ok {s : String} {bs rest : List UInt8} (h : takeText bs = .ok (s, rest)) :
    bs = ofText s ++ rest ∧ (Text.encodeUtf8 s).length < 2 ^ 64 := by
  obtain ⟨⟨n, bs'⟩, hn, hblock⟩ := bind_eq_ok.1 h
  obtain ⟨rfl, hlt⟩ := takeNat_eq_ok hn
  dsimp only at hblock
  split at hblock
  · cases hblock
  · rename_i hlen
    split at hblock
    · rename_i t ht
      cases hblock
      have hbytes := Text.encodeUtf8_of_decodeUtf8 ht
      have hlength : (Text.encodeUtf8 s).length = n := by
        rw [hbytes, List.length_take]
        omega
      rw [ofText, hlength, hbytes, List.append_assoc, List.take_append_drop]
      exact ⟨rfl, by omega⟩
    · cases hblock

theorem takeBytes_eq_ok {block bs rest : List UInt8} (h : takeBytes bs = .ok (block, rest)) :
    bs = ofNat 8 block.length ++ (block ++ rest) ∧ block.length < 2 ^ 64 := by
  obtain ⟨⟨n, bs'⟩, hn, hblock⟩ := bind_eq_ok.1 h
  obtain ⟨rfl, hlt⟩ := takeNat_eq_ok hn
  dsimp only at hblock
  split at hblock
  · cases hblock
  · rename_i hlen
    cases hblock
    have hlength : (bs'.take n).length = n := by
      rw [List.length_take]
      omega
    rw [hlength, List.take_append_drop]
    exact ⟨rfl, hlt⟩

theorem ofText_append_inj {s t : String} {r u : List UInt8}
    (hs : (Text.encodeUtf8 s).length < 2 ^ 64) (ht : (Text.encodeUtf8 t).length < 2 ^ 64)
    (h : ofText s ++ r = ofText t ++ u) : s = t ∧ r = u := by
  have hread := takeText_ofText hs r
  rw [h, takeText_ofText ht] at hread
  cases hread
  exact ⟨rfl, rfl⟩

end Bytes

namespace Outline

open Bytes

/-- A value as bytes spell it out: nothing is left as a reference, and lengths fit into eight
bytes. Properties may be in any order and repeat names. -/
inductive Written : Outline → Prop where
  | null : Written .null
  | bool (b : Bool) : Written (.bool b)
  | int (n : Int64) : Written (.int n)
  | float (bits : UInt64) : Written (.float bits)
  | text {s : String} (hs : (Text.encodeUtf8 s).length < 2 ^ 64) : Written (.text s)
  | bytes {bs : List UInt8} (hs : bs.length < 2 ^ 64) : Written (.bytes bs)
  | list {ls : List Outline} (hs : ls.length < 2 ^ 64) (hls : ∀ l ∈ ls, Written l) :
      Written (.list ls)
  | object {props : List (String × Outline)} (hs : props.length < 2 ^ 64)
      (names : ∀ p ∈ props, (Text.encodeUtf8 p.1).length < 2 ^ 64)
      (hprops : ∀ p ∈ props, Written p.2) : Written (.object props)

mutual

/-- The frozen value that is spelled out: each object has its properties in order, the last one of
each name. -/
def normal : Outline → Frozen
  | .null => .null
  | .bool b => .bool b
  | .int n => .int n
  | .float bits => .float bits
  | .text s => .text s
  | .bytes bs => .bytes bs
  | .list ls => .list (normalAll ls)
  | .object props => .object (NameMap.ofList (normalProps props)).entries
  | .ref _ => .object []

def normalAll : List Outline → List Frozen
  | [] => []
  | l :: ls => normal l :: normalAll ls

def normalProps : List (String × Outline) → List (String × Frozen)
  | [] => []
  | (name, l) :: props => (name, normal l) :: normalProps props

end

theorem normalAll_eq_map (ls : List Outline) : normalAll ls = ls.map normal := by
  induction ls with
  | nil => rfl
  | cons l ls ih => rw [normalAll, ih, List.map_cons]

theorem normalProps_eq_map (props : List (String × Outline)) :
    normalProps props = props.map fun p => (p.1, p.2.normal) := by
  induction props with
  | nil => rfl
  | cons p props ih => rw [normalProps, ih, List.map_cons]

theorem encodeAll_eq_flatMap (ls : List Outline) : encodeAll ls = ls.flatMap encode := by
  induction ls with
  | nil => rfl
  | cons l ls ih => rw [encodeAll, ih, List.flatMap_cons]

/-- The bytes of a property: its name, then its value. -/
def encodeProp (p : String × Outline) : List UInt8 := ofText p.1 ++ p.2.encode

theorem encodeProps_eq_flatMap (props : List (String × Outline)) :
    encodeProps props = props.flatMap encodeProp := by
  induction props with
  | nil => rfl
  | cons p props ih => rw [encodeProps, ih, List.flatMap_cons, encodeProp]

end Outline

namespace Frozen

open Bytes Outline

variable {α γ : Type}

/-- Whatever the reader takes from the front of its bytes, the bytes there spell out something that
means it. -/
def SpelledOut (read : Reader α) (Fits : γ → Prop) (spell : γ → List UInt8) (mean : γ → α) : Prop :=
  ∀ ⦃bs rest : List UInt8⦄ ⦃a : α⦄, read bs = .ok (a, rest) →
    ∃ c, Fits c ∧ bs = spell c ++ rest ∧ a = mean c

theorem SpelledOut.takeMany {read : Reader α} {Fits : γ → Prop} {spell : γ → List UInt8}
    {mean : γ → α} (hread : SpelledOut read Fits spell mean) {n : Nat} {bs rest : List UInt8}
    {as : List α} (h : takeMany read n bs = .ok (as, rest)) :
    ∃ cs : List γ, (∀ c ∈ cs, Fits c) ∧ cs.length = n ∧ bs = cs.flatMap spell ++ rest ∧
      as = cs.map mean := by
  induction n generalizing bs as with
  | zero => cases h; exact ⟨[], by simp⟩
  | succ n ih =>
    obtain ⟨⟨a, bs'⟩, ha, hrest⟩ := bind_eq_ok.1 h
    obtain ⟨⟨as', bs''⟩, has, hcons⟩ := bind_eq_ok.1 hrest
    cases hcons
    obtain ⟨c, hc, rfl, rfl⟩ := hread ha
    obtain ⟨cs, hcs, rfl, rfl, rfl⟩ := ih has
    refine ⟨c :: cs, ?_, rfl, ?_, rfl⟩
    · simpa using ⟨hc, hcs⟩
    · rw [List.flatMap_cons, List.append_assoc]

theorem SpelledOut.takeProp {read : Reader Frozen}
    (hread : SpelledOut read Written encode normal) :
    SpelledOut (takeProp read)
      (fun p => (Text.encodeUtf8 p.1).length < 2 ^ 64 ∧ p.2.Written) encodeProp
      (fun p => (p.1, p.2.normal)) := by
  intro bs rest p h
  obtain ⟨⟨name, bs'⟩, hname, hrest⟩ := bind_eq_ok.1 h
  obtain ⟨⟨f, bs''⟩, hf, hpair⟩ := bind_eq_ok.1 hrest
  cases hpair
  obtain ⟨rfl, hlen⟩ := takeText_eq_ok hname
  obtain ⟨l, hl, rfl, rfl⟩ := hread hf
  exact ⟨(name, l), ⟨hlen, hl⟩, by rw [encodeProp, List.append_assoc], rfl⟩

/-- The content of a value is spelled out behind the number of its kind. -/
theorem spelledOut_content {read : Reader Frozen} (hread : SpelledOut read Written encode normal)
    {kind : Nat} {bs rest : List UInt8} {f : Frozen}
    (h : takeContent read kind bs = .ok (f, rest)) :
    ∃ l : Outline, l.Written ∧ ofNat 4 kind ++ bs = l.encode ++ rest ∧ f = l.normal := by
  match kind with
  | 0 => cases h; exact ⟨.null, .null, rfl, rfl⟩
  | 1 =>
    cases bs with
    | nil => cases h
    | cons b bs =>
      rw [takeContent, takeBool] at h
      split at h
      · rename_i hb
        cases h
        exact ⟨.bool false, .bool false, by rw [hb]; rfl, rfl⟩
      · split at h
        · rename_i hb
          cases h
          exact ⟨.bool true, .bool true, by rw [hb]; rfl, rfl⟩
        · cases h
  | 2 =>
    obtain ⟨⟨n, bs'⟩, hn, hint⟩ := bind_eq_ok.1 h
    cases hint
    obtain ⟨rfl, hlt⟩ := takeNat_eq_ok hn
    refine ⟨.int (UInt64.ofNat n).toInt64, .int _, ?_, rfl⟩
    have hback : (UInt64.ofNat n).toInt64.toUInt64.toNat = n := by
      simp; omega
    rw [encode, hback, List.append_assoc]
  | 3 =>
    obtain ⟨⟨n, bs'⟩, hn, hfloat⟩ := bind_eq_ok.1 h
    cases hfloat
    obtain ⟨rfl, hlt⟩ := takeNat_eq_ok hn
    refine ⟨.float (UInt64.ofNat n), .float _, ?_, rfl⟩
    have hback : (UInt64.ofNat n).toNat = n := by
      simp; omega
    rw [encode, hback, List.append_assoc]
  | 4 =>
    obtain ⟨⟨s, bs'⟩, hs, htext⟩ := bind_eq_ok.1 h
    cases htext
    obtain ⟨rfl, hlt⟩ := takeText_eq_ok hs
    exact ⟨.text s, .text hlt, by rw [encode, List.append_assoc], rfl⟩
  | 5 =>
    obtain ⟨⟨block, bs'⟩, hblock, hbytes⟩ := bind_eq_ok.1 h
    cases hbytes
    obtain ⟨rfl, hlt⟩ := takeBytes_eq_ok hblock
    exact ⟨.bytes block, .bytes hlt, by simp only [encode, List.append_assoc], rfl⟩
  | 6 =>
    obtain ⟨⟨n, bs'⟩, hn, hmany⟩ := bind_eq_ok.1 h
    obtain ⟨⟨fs, bs''⟩, hfs, hlist⟩ := bind_eq_ok.1 hmany
    cases hlist
    obtain ⟨rfl, hlt⟩ := takeNat_eq_ok hn
    obtain ⟨ls, hls, rfl, rfl, rfl⟩ := hread.takeMany hfs
    refine ⟨.list ls, .list hlt hls, ?_, ?_⟩
    · simp only [encode, encodeAll_eq_flatMap, List.append_assoc]
    · rw [normal, normalAll_eq_map]
  | 7 =>
    obtain ⟨⟨n, bs'⟩, hn, hmany⟩ := bind_eq_ok.1 h
    obtain ⟨⟨ps, bs''⟩, hps, hobject⟩ := bind_eq_ok.1 hmany
    cases hobject
    obtain ⟨rfl, hlt⟩ := takeNat_eq_ok hn
    obtain ⟨props, hprops, rfl, rfl, rfl⟩ := hread.takeProp.takeMany hps
    refine ⟨.object props, .object hlt (fun p hp => (hprops p hp).1) fun p hp => (hprops p hp).2,
      ?_, ?_⟩
    · simp only [encode, encodeProps_eq_flatMap, List.append_assoc]
    · rw [normal, normalProps_eq_map]
  | k + 8 => cases h

theorem spelledOut_take (depth : Nat) : SpelledOut (take depth) Written encode normal := by
  induction depth with
  | zero =>
    intro bs rest f h
    cases h
  | succ depth ih =>
    intro bs rest f h
    rw [take_succ] at h
    obtain ⟨⟨kind, bs'⟩, hkind, hcontent⟩ := bind_eq_ok.1 h
    obtain ⟨rfl, -⟩ := takeNat_eq_ok hkind
    exact spelledOut_content ih hcontent

end Frozen

namespace Outline

open Bytes

/-- The number of the kind of a value. -/
def kind : Outline → Nat
  | .null => 0
  | .bool _ => 1
  | .int _ => 2
  | .float _ => 3
  | .text _ => 4
  | .bytes _ => 5
  | .list _ => 6
  | .object _ => 7
  | .ref _ => 7

theorem kind_lt (l : Outline) : l.kind < 256 ^ 4 := by
  cases l <;> simp [kind]

theorem encode_eq_kind (l : Outline) : ∃ content, l.encode = ofNat 4 l.kind ++ content := by
  cases l with
  | null => exact ⟨[], (List.append_nil _).symm⟩
  | bytes bs => exact ⟨_, List.append_assoc _ _ _⟩
  | list ls => exact ⟨_, List.append_assoc _ _ _⟩
  | object props => exact ⟨_, List.append_assoc _ _ _⟩
  | _ => exact ⟨_, rfl⟩

theorem kind_eq_of_encode {l m : Outline} {r s : List UInt8}
    (h : l.encode ++ r = m.encode ++ s) : l.kind = m.kind := by
  obtain ⟨c, hc⟩ := l.encode_eq_kind
  obtain ⟨d, hd⟩ := m.encode_eq_kind
  rw [hc, hd, List.append_assoc, List.append_assoc] at h
  exact (ofNat_append_inj l.kind_lt m.kind_lt h).1

/-- Lists of equal length are known by their spellings if their members are. -/
theorem flatMap_append_inj {γ : Type} {spell : γ → List UInt8} {cs ds : List γ} {r s : List UInt8}
    (hcs : ∀ c ∈ cs, ∀ d ∈ ds, ∀ r s, spell c ++ r = spell d ++ s → c = d ∧ r = s)
    (hlen : cs.length = ds.length) (h : cs.flatMap spell ++ r = ds.flatMap spell ++ s) :
    cs = ds ∧ r = s := by
  induction cs generalizing ds with
  | nil =>
    obtain rfl := List.length_eq_zero_iff.1 hlen.symm
    exact ⟨rfl, h⟩
  | cons c cs ih =>
    cases ds with
    | nil => cases hlen
    | cons d ds =>
      rw [List.flatMap_cons, List.flatMap_cons, List.append_assoc, List.append_assoc] at h
      obtain ⟨rfl, hrest⟩ := hcs c List.mem_cons_self d List.mem_cons_self _ _ h
      obtain ⟨rfl, hrs⟩ := ih
        (fun a ha b hb => hcs a (List.mem_cons_of_mem _ ha) b (List.mem_cons_of_mem _ hb))
        (Nat.succ.inj hlen) hrest
      exact ⟨rfl, hrs⟩

/-- Bytes begin with the spelling of one value at most. -/
theorem Written.encode_append_inj {l m : Outline} {r s : List UInt8} (hl : l.Written)
    (hm : m.Written) (h : l.encode ++ r = m.encode ++ s) : l = m ∧ r = s := by
  induction hl generalizing m r s with
  | null =>
    have hkind := kind_eq_of_encode h
    cases hm with
    | null => exact ⟨rfl, List.append_cancel_left h⟩
    | _ => cases hkind
  | bool b =>
    have hkind := kind_eq_of_encode h
    cases hm with
    | bool c =>
      simp only [encode, List.append_assoc] at h
      have hbit := List.append_cancel_left h
      cases b <;> cases c <;> simp_all
    | _ => cases hkind
  | int n =>
    have hkind := kind_eq_of_encode h
    cases hm with
    | int n' =>
      simp only [encode, List.append_assoc] at h
      have hword := ofNat_append_inj n.toUInt64.toNat_lt n'.toUInt64.toNat_lt
        (List.append_cancel_left h)
      have hn := congrArg UInt64.toInt64 (UInt64.toNat_inj.1 hword.1)
      rw [Int64.toInt64_toUInt64, Int64.toInt64_toUInt64] at hn
      exact ⟨congrArg _ hn, hword.2⟩
    | _ => cases hkind
  | float bits =>
    have hkind := kind_eq_of_encode h
    cases hm with
    | float bits' =>
      simp only [encode, List.append_assoc] at h
      have hword := ofNat_append_inj bits.toNat_lt bits'.toNat_lt (List.append_cancel_left h)
      exact ⟨congrArg _ (UInt64.toNat_inj.1 hword.1), hword.2⟩
    | _ => cases hkind
  | text hs =>
    have hkind := kind_eq_of_encode h
    cases hm with
    | text ht =>
      simp only [encode, List.append_assoc] at h
      obtain ⟨rfl, hrs⟩ := ofText_append_inj hs ht (List.append_cancel_left h)
      exact ⟨rfl, hrs⟩
    | _ => cases hkind
  | bytes hs =>
    have hkind := kind_eq_of_encode h
    cases hm with
    | bytes ht =>
      simp only [encode, List.append_assoc] at h
      obtain ⟨hlen, hblock⟩ := ofNat_append_inj hs ht (List.append_cancel_left h)
      obtain ⟨rfl, hrs⟩ := List.append_inj hblock hlen
      exact ⟨rfl, hrs⟩
    | _ => cases hkind
  | list hs _ ih =>
    have hkind := kind_eq_of_encode h
    cases hm with
    | list hs' hms =>
      simp only [encode, encodeAll_eq_flatMap, List.append_assoc] at h
      obtain ⟨hlen, hall⟩ := ofNat_append_inj hs hs' (List.append_cancel_left h)
      obtain ⟨rfl, hrs⟩ := flatMap_append_inj (fun l hl m hm r s => ih l hl (hms m hm)) hlen hall
      exact ⟨rfl, hrs⟩
    | _ => cases hkind
  | @object props hs names _ ih =>
    have hkind := kind_eq_of_encode h
    cases hm with
    | @object props' hs' names' hprops' =>
      simp only [encode, encodeProps_eq_flatMap, List.append_assoc] at h
      obtain ⟨hlen, hall⟩ := ofNat_append_inj hs hs' (List.append_cancel_left h)
      have hprop : ∀ p ∈ props, ∀ q ∈ props', ∀ r s,
          encodeProp p ++ r = encodeProp q ++ s → p = q ∧ r = s := by
        intro p hp q hq r s hpq
        simp only [encodeProp, List.append_assoc] at hpq
        obtain ⟨hname, hvalue⟩ := ofText_append_inj (names p hp) (names' q hq) hpq
        obtain ⟨hsnd, hrs⟩ := ih p hp (hprops' q hq) hvalue
        exact ⟨Prod.ext hname hsnd, hrs⟩
      obtain ⟨rfl, hrs⟩ := flatMap_append_inj hprop hlen hall
      exact ⟨rfl, hrs⟩
    | _ => cases hkind

/-- The bytes `p` are the spelling of the values `ls`: their number, then each of them. -/
structure SpelledBy (ls : List Outline) (p : List UInt8) : Prop where
  length : ls.length < 2 ^ 64
  written : ∀ l ∈ ls, l.Written
  bytes : p = ofNat 8 ls.length ++ encodeAll ls

/-- Bytes are the spelling of one list of values at most. -/
theorem SpelledBy.unique {ls ms : List Outline} {p : List UInt8} (hls : SpelledBy ls p)
    (hms : SpelledBy ms p) : ms = ls := by
  have hbytes := hls.bytes.symm.trans hms.bytes
  obtain ⟨hlen, hall⟩ := ofNat_append_inj hls.length hms.length hbytes
  rw [encodeAll_eq_flatMap, encodeAll_eq_flatMap, ← List.append_nil (ls.flatMap encode),
    ← List.append_nil (ms.flatMap encode)] at hall
  have hinj := flatMap_append_inj (fun l hl m hm r s =>
    (hls.written l hl).encode_append_inj (hms.written m hm)) hlen hall
  exact hinj.1.symm

end Outline

namespace Frozen

open Bytes Outline

theorem Regular.outline_written {f : Frozen} (hf : f.Regular) : f.outline.Written := by
  induction hf with
  | null => exact .null
  | bool b => exact .bool b
  | int n => exact .int n
  | float bits => exact .float bits
  | text hs => exact .text hs
  | bytes hs => exact .bytes hs
  | list hs _ ih =>
    rw [outline, outlineAll_eq_map]
    exact .list (by simpa using hs) (List.forall_mem_map.2 ih)
  | object hs sorted names _ ih =>
    rw [outline, outlineProps_eq_map]
    exact .object (by simpa using hs) (List.forall_mem_map.2 names) (List.forall_mem_map.2 ih)

/-- What the decoder reads, it reads from the spelling of some values. -/
theorem exists_spelledBy {bs rest : List UInt8} {fs : List Frozen}
    (h : takeRows bs = .ok (fs, rest)) :
    ∃ p ls, bs = p ++ rest ∧ SpelledBy ls p ∧ fs = ls.map normal := by
  obtain ⟨⟨n, bs'⟩, hn, hrows⟩ := bind_eq_ok.1 h
  obtain ⟨hbs, hlt⟩ := takeNat_eq_ok hn
  obtain ⟨ls, hls, rfl, rfl, rfl⟩ := (spelledOut_take (bs.length + 1)).takeMany hrows
  refine ⟨ofNat 8 ls.length ++ encodeAll ls, ls, ?_, ⟨hlt, hls, rfl⟩, rfl⟩
  rw [hbs, encodeAll_eq_flatMap, List.append_assoc]

theorem decodeRows_eq_ok {bs : List UInt8} {fs : List Frozen} (h : decodeRows bs = .ok fs) :
    ∃ rest, takeRows bs = .ok (fs, rest) := by
  rw [decodeRows] at h
  cases hread : takeRows bs with
  | error why =>
    rw [hread] at h
    cases h
  | ok r =>
    rw [hread] at h
    cases h
    exact ⟨r.2, rfl⟩

/-- The bytes of frozen values are a spelling too. -/
theorem spelledBy_encodeRows {fs : List Frozen} (hlen : fs.length < 2 ^ 64)
    (hfs : ∀ f ∈ fs, f.Regular) : SpelledBy (fs.map outline) (encodeRows fs) := by
  refine ⟨by simpa using hlen, List.forall_mem_map.2 fun f hf => (hfs f hf).outline_written, ?_⟩
  rw [encodeRows, outlineAll_eq_map, List.length_map]

end Frozen

end ResultCache
