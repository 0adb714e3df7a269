import ResultCache.Proofs.Text.Utf8
import ResultCache.Proofs.Value.Region
import ResultCache.Value.Bytes

/-!
# Decoding what was encoded

An encoding shows a value as its frozen copy shows it: the writer, which may not enter an object that
it holds, leaves off exactly where the copy does (`cut_outlineHolding`), and a reference that was
left is written like an object without properties (`encode_cut`). So the bytes of rows decode to
the frozen copies of the rows, with whatever bytes after them (`takeRows_encodeRows`).
-/
namespace ResultCache

namespace Bytes

@[simp] theorem length_ofNat (n v : Nat) : (ofNat n v).length = n := by
  induction n generalizing v with
  | zero => rfl
  | succ n ih => rw [ofNat, List.length_cons, ih]

/-- `n` bytes hold a number up to multiples of `256 ^ n`. -/
theorem takeNat_ofNat (n v : Nat) (rest : List UInt8) :
    takeNat n (ofNat n v ++ rest) = .ok (v % 256 ^ n, rest) := by
  induction n generalizing v with
  | zero => simp [takeNat, ofNat, Nat.mod_one]
  | succ n ih =>
    have hb : (UInt8.ofNat v).toNat = v % 256 := by simp
    rw [ofNat, List.cons_append, takeNat, ih]
    simp only [bind, Except.bind, hb]
    rw [Nat.pow_succ, Nat.mul_comm (256 ^ n), Nat.mod_mul]

theorem takeNat_eight {v : Nat} (hv : v < 2 ^ 64) (rest : List UInt8) :
    takeNat 8 (ofNat 8 v ++ rest) = .ok (v, rest) := by
  rw [takeNat_ofNat, Nat.mod_eq_of_lt (by omega)]

theorem takeText_ofText {s : String} (hs : (Text.encodeUtf8 s).length < 2 ^ 64)
    (rest : List UInt8) : takeText (ofText s ++ rest) = .ok (s, rest) := by
  rw [takeText, ofText, List.append_assoc, takeNat_eight hs]
  simp [bind, Except.bind, Text.decodeUtf8_encodeUtf8]

theorem takeBytes_ofNat {bs : List UInt8} (hs : bs.length < 2 ^ 64) (rest : List UInt8) :
    takeBytes (ofNat 8 bs.length ++ (bs ++ rest)) = .ok (bs, rest) := by
  rw [takeBytes, takeNat_eight hs]
  simp [bind, Except.bind]

end Bytes

namespace Outline

mutual

/-- The frozen value that an outline shows: a reference shows as an object without properties. -/
def cut : Outline → Frozen
  | .null => .null
  | .bool b => .bool b
  | .int n => .int n
  | .float b => .float b
  | .text s => .text s
  | .bytes bs => .bytes bs
  | .list ls => .list (cutAll ls)
  | .object props => .object (cutProps props)
  | .ref _ => .object []

def cutAll : List Outline → List Frozen
  | [] => []
  | l :: ls => cut l :: cutAll ls

def cutProps : List (String × Outline) → List (String × Frozen)
  | [] => []
  | (name, l) :: props => (name, cut l) :: cutProps props

end

theorem cutAll_eq_map (ls : List Outline) : cutAll ls = ls.map cut := by
  induction ls with
  | nil => rfl
  | cons l ls ih => rw [cutAll, ih, List.map_cons]

theorem cutProps_eq_map (props : List (String × Outline)) :
    cutProps props = props.map fun p => (p.1, p.2.cut) := by
  induction props with
  | nil => rfl
  | cons p props ih => rw [cutProps, ih, List.map_cons]

end Outline

namespace Frozen

theorem outlineAll_eq_map (fs : List Frozen) : outlineAll fs = fs.map outline := by
  induction fs with
  | nil => rfl
  | cons f fs ih => rw [outlineAll, ih, List.map_cons]

theorem outlineProps_eq_map (ps : List (String × Frozen)) :
    outlineProps ps = ps.map fun p => (p.1, p.2.outline) := by
  induction ps with
  | nil => rfl
  | cons p ps ih => rw [outlineProps, ih, List.map_cons]

end Frozen

namespace Outline

mutual

/-- The bytes of an outline are those of the frozen value that it shows. -/
theorem encode_cut (l : Outline) : l.cut.outline.encode = l.encode := by
  cases l with
  | list ls =>
    rw [cut, Frozen.outline, encode, encode, encodeAll_cutAll ls, Frozen.outlineAll_eq_map,
      cutAll_eq_map, List.length_map, List.length_map]
  | object props =>
    rw [cut, Frozen.outline, encode, encode, encodeProps_cutProps props,
      Frozen.outlineProps_eq_map, cutProps_eq_map, List.length_map, List.length_map]
  | ref o => rw [cut, Frozen.outline, Frozen.outlineProps, encode, encode, encodeProps]; simp
  | _ => rfl

theorem encodeAll_cutAll (ls : List Outline) :
    encodeAll (Frozen.outlineAll (cutAll ls)) = encodeAll ls := by
  cases ls with
  | nil => rfl
  | cons l ls =>
    rw [cutAll, Frozen.outlineAll, encodeAll, encodeAll, encode_cut l, encodeAll_cutAll ls]

theorem encodeProps_cutProps (props : List (String × Outline)) :
    encodeProps (Frozen.outlineProps (cutProps props)) = encodeProps props := by
  match props with
  | [] => rfl
  | (name, l) :: props =>
    rw [cutProps, Frozen.outlineProps, encodeProps, encodeProps, encode_cut l,
      encodeProps_cutProps props]

end

end Outline

theorem Heap.freezeAlong_object_of_none {h : Heap} {path : List ObjId} {o : ObjId} (ho : o ∉ path)
    (hr : h.record? o = none) : h.freezeAlong path (.object o) = .object [] := by
  rw [freezeAlong, dif_neg ho]
  split
  · rfl
  · simp_all

theorem Heap.outlineHolding_object_of_none {h : Heap} {held : List ObjId} {o : ObjId}
    (ho : o ∉ held) (hr : h.record? o = none) : h.outlineHolding held (.object o) = .ref o := by
  rw [outlineHolding, dif_neg ho]
  split
  · rfl
  · simp_all

/-- A writer that holds the objects on its way cuts where the copy along the same way cuts. -/
theorem Heap.cut_outlineHolding (h : Heap) (path : List ObjId) (v : Value) :
    (h.outlineHolding path v).cut = h.freezeAlong path v := by
  induction path, v using Heap.freezeAlong.induct h with
  | case1 => rw [outlineHolding, freezeAlong, Outline.cut]
  | case2 => rw [outlineHolding, freezeAlong, Outline.cut]
  | case3 => rw [outlineHolding, freezeAlong, Outline.cut]
  | case4 => rw [outlineHolding, freezeAlong, Outline.cut]
  | case5 => rw [outlineHolding, freezeAlong, Outline.cut]
  | case6 => rw [outlineHolding, freezeAlong, Outline.cut]
  | case7 path vs ih =>
    rw [outlineHolding_list, freezeAlong_list, Outline.cut, Outline.cutAll_eq_map, List.map_map]
    congr 1
    exact List.map_congr_left fun v hm => ih v hm
  | case8 path o ho =>
    rw [outlineHolding_object_of_mem ho, freezeAlong_object_of_mem ho, Outline.cut]
  | case9 path o ho hr =>
    rw [outlineHolding_object_of_none ho hr, freezeAlong_object_of_none ho hr, Outline.cut]
  | case10 path o ho r hr ih =>
    rw [outlineHolding_object ho hr, freezeAlong_object ho hr, Outline.cut,
      Outline.cutProps_eq_map, List.map_map]
    congr 1
    exact List.map_congr_left fun p hp => by rw [Function.comp, ih ⟨p, hp⟩]

/-- The bytes of a value are those of its frozen copy. -/
theorem Heap.encode_outline (h : Heap) (v : Value) :
    (h.outline v).encode = (h.freeze v).outline.encode := by
  have hcut : (h.outline v).cut = h.freeze v := h.cut_outlineHolding [] v
  rw [← Outline.encode_cut, hcut]

namespace Frozen

open Bytes

/-- The bytes of frozen rows: their number, then each of them. -/
def encodeRows (fs : List Frozen) : List UInt8 :=
  ofNat 8 fs.length ++ Outline.encodeAll (outlineAll fs)

theorem length_encode_le_of_mem {f : Frozen} {fs : List Frozen} (hf : f ∈ fs) :
    f.outline.encode.length ≤ (Outline.encodeAll (outlineAll fs)).length := by
  induction fs with
  | nil => cases hf
  | cons g gs ih =>
    rw [outlineAll, Outline.encodeAll, List.length_append]
    rcases List.mem_cons.1 hf with hf | hf
    · subst hf
      omega
    · have := ih hf
      omega

theorem length_encode_le_of_mem_props {p : String × Frozen} {ps : List (String × Frozen)}
    (hp : p ∈ ps) :
    p.2.outline.encode.length ≤ (Outline.encodeProps (outlineProps ps)).length := by
  induction ps with
  | nil => cases hp
  | cons q qs ih =>
    rw [outlineProps, Outline.encodeProps, List.length_append, List.length_append]
    rcases List.mem_cons.1 hp with hp | hp
    · subst hp
      omega
    · have := ih hp
      omega

theorem takeMany_encodeAll {read : List UInt8 → Except DecodeFault (Frozen × List UInt8)}
    {fs : List Frozen}
    (hread : ∀ f ∈ fs, ∀ rest, read (f.outline.encode ++ rest) = .ok (f, rest))
    (rest : List UInt8) :
    takeMany read fs.length (Outline.encodeAll (outlineAll fs) ++ rest) = .ok (fs, rest) := by
  induction fs with
  | nil => rfl
  | cons f fs ih =>
    have hf := hread f List.mem_cons_self
    have hfs := ih fun g hg => hread g (List.mem_cons_of_mem _ hg)
    rw [List.length_cons, takeMany, outlineAll, Outline.encodeAll, List.append_assoc, hf]
    simp only [bind, Except.bind, hfs]

theorem takeMany_encodeProps {read : List UInt8 → Except DecodeFault (Frozen × List UInt8)}
    {ps : List (String × Frozen)} (names : ∀ p ∈ ps, (Text.encodeUtf8 p.1).length < 2 ^ 64)
    (hread : ∀ p ∈ ps, ∀ rest, read (p.2.outline.encode ++ rest) = .ok (p.2, rest))
    (rest : List UInt8) :
    takeMany (takeProp read) ps.length (Outline.encodeProps (outlineProps ps) ++ rest) =
      .ok (ps, rest) := by
  induction ps with
  | nil => rfl
  | cons p ps ih =>
    obtain ⟨name, f⟩ := p
    have hn := names (name, f) List.mem_cons_self
    have hf := hread (name, f) List.mem_cons_self
    have hps := ih (fun q hq => names q (List.mem_cons_of_mem _ hq))
      fun q hq => hread q (List.mem_cons_of_mem _ hq)
    rw [List.length_cons, takeMany, takeProp, outlineProps, Outline.encodeProps, List.append_assoc,
      List.append_assoc, takeText_ofText hn]
    simp only [bind, Except.bind, hf, hps]

end Frozen

namespace NameMap

variable {α : Type}

theorem place_eq_append {name : String} {a : α} {l : List (String × α)}
    (hl : ∀ p ∈ l, p.1 < name) : place name a l = l ++ [(name, a)] := by
  induction l with
  | nil => rfl
  | cons q rest ih =>
    have hq : q.1 < name := hl q List.mem_cons_self
    have hne : name ≠ q.1 := fun he => String.lt_irrefl _ (he ▸ hq)
    have hnlt : ¬ name < q.1 := fun hlt => String.lt_irrefl _ (String.lt_trans hlt hq)
    rw [place, if_neg hnlt, if_neg hne, ih fun p hp => hl p (List.mem_cons_of_mem _ hp),
      List.cons_append]

/-- A list of pairs in order of name is the map it makes. -/
theorem entries_ofList {l : List (String × α)} (hl : l.Pairwise (fun a b => a.1 < b.1)) :
    (ofList l).entries = l := by
  suffices h : ∀ (m : NameMap α), (∀ p ∈ m.entries, ∀ q ∈ l, p.1 < q.1) →
      (l.foldl (fun m p => m.insert p.1 p.2) m).entries = m.entries ++ l by
    simpa [ofList, empty] using h empty (by simp [empty])
  induction l with
  | nil => simp
  | cons q rest ih =>
    intro m hm
    have hq := List.pairwise_cons.1 hl
    have hins : (m.insert q.1 q.2).entries = m.entries ++ [q] :=
      place_eq_append fun p hp => hm p hp q List.mem_cons_self
    rw [List.foldl_cons, ih hq.2, hins, List.append_assoc]
    · rfl
    · intro p hp r hr
      rw [hins] at hp
      rcases List.mem_append.1 hp with hp | hp
      · exact hm p hp r (List.mem_cons_of_mem _ hr)
      · rw [List.mem_singleton.1 hp]
        exact hq.1 r hr

end NameMap

namespace Frozen

open Bytes

/-- A frozen value is read back from its bytes, whatever follows them. Values nest less deep than
their bytes are long, which bounds the depth of the reader. -/
theorem take_encode {f : Frozen} (hf : f.Regular) {depth : Nat}
    (hd : f.outline.encode.length < depth) (rest : List UInt8) :
    take depth (f.outline.encode ++ rest) = .ok (f, rest) := by
  obtain ⟨depth, rfl⟩ : ∃ d, depth = d + 1 := ⟨depth - 1, by omega⟩
  induction hf generalizing depth rest with
  | null => rw [outline, Outline.encode, take, takeNat_ofNat]; rfl
  | bool b =>
    rw [outline, Outline.encode, List.append_assoc, take, takeNat_ofNat]
    cases b <;> rfl
  | int n =>
    have hn : n.toUInt64.toNat < 2 ^ 64 := n.toUInt64.toNat_lt
    rw [outline, Outline.encode, List.append_assoc, take, takeNat_ofNat]
    simp [bind, Except.bind, takeNat_eight hn]
  | float b =>
    have hb : b.toNat < 2 ^ 64 := b.toNat_lt
    rw [outline, Outline.encode, List.append_assoc, take, takeNat_ofNat]
    simp [bind, Except.bind, takeNat_eight hb]
  | text hs =>
    rw [outline, Outline.encode, List.append_assoc, take, takeNat_ofNat]
    simp [bind, Except.bind, takeText_ofText hs]
  | bytes hs =>
    rw [outline, Outline.encode, List.append_assoc, List.append_assoc, take, takeNat_ofNat]
    simp [bind, Except.bind, takeBytes_ofNat hs]
  | @list fs hs hfs ih =>
    rw [outline, Outline.encode, outlineAll_eq_map, List.length_map, ← outlineAll_eq_map] at hd ⊢
    rw [List.append_assoc, List.append_assoc, take, takeNat_ofNat]
    have hread : ∀ f ∈ fs, ∀ rest, take depth (f.outline.encode ++ rest) = .ok (f, rest) := by
      intro f hm rest
      have hle := length_encode_le_of_mem hm
      simp only [List.length_append, length_ofNat] at hd
      obtain ⟨d, rfl⟩ : ∃ d, depth = d + 1 := ⟨depth - 1, by omega⟩
      exact ih f hm rest d (by omega)
    simp [bind, Except.bind, takeNat_eight hs, takeMany_encodeAll hread]
  | @object ps hs sorted names hps ih =>
    rw [outline, Outline.encode, outlineProps_eq_map, List.length_map, ← outlineProps_eq_map]
      at hd ⊢
    rw [List.append_assoc, List.append_assoc, take, takeNat_ofNat]
    have hread : ∀ p ∈ ps, ∀ rest, take depth (p.2.outline.encode ++ rest) = .ok (p.2, rest) := by
      intro p hm rest
      have hle := length_encode_le_of_mem_props hm
      simp only [List.length_append, length_ofNat] at hd
      obtain ⟨d, rfl⟩ : ∃ d, depth = d + 1 := ⟨depth - 1, by omega⟩
      exact ih p hm rest d (by omega)
    simp [bind, Except.bind, takeNat_eight hs, takeMany_encodeProps names hread,
      NameMap.entries_ofList sorted]

/-- Rows are read back from their bytes, whatever follows them. -/
theorem takeRows_encodeRows {fs : List Frozen} (hs : fs.length < 2 ^ 64)
    (hfs : ∀ f ∈ fs, f.Regular) (rest : List UInt8) :
    takeRows (encodeRows fs ++ rest) = .ok (fs, rest) := by
  rw [takeRows, encodeRows, List.append_assoc, takeNat_eight hs]
  refine takeMany_encodeAll (fun f hf rest' => ?_) rest
  have hle := length_encode_le_of_mem hf
  exact take_encode (hfs f hf) (by simp; omega) rest'

theorem decodeRows_encodeRows {fs : List Frozen} (hs : fs.length < 2 ^ 64)
    (hfs : ∀ f ∈ fs, f.Regular) : decodeRows (encodeRows fs) = .ok fs := by
  have h := takeRows_encodeRows hs hfs []
  rw [List.append_nil] at h
  rw [decodeRows, h]
  rfl

end Frozen

/-- The bytes of rows are those of their frozen copies. -/
theorem Heap.encodeRows_eq (h : Heap) (vs : List Value) :
    h.encodeRows vs = Frozen.encodeRows (vs.map h.freeze) := by
  rw [encodeRows, Frozen.encodeRows, List.length_map]
  congr 1
  induction vs with
  | nil => rfl
  | cons v vs ih =>
    rw [List.map_cons, List.map_cons, Frozen.outlineAll, Outline.encodeAll, Outline.encodeAll,
      h.encode_outline v, ih]

theorem Heap.freezeRows_regular {h : Heap} {K : ObjId → Prop} (hK : h.Region K) {vs : List Value}
    (hvs : ∀ v ∈ vs, v.Within K) : ∀ f ∈ vs.map h.freeze, f.Regular := by
  intro f hf
  obtain ⟨v, hv, rfl⟩ := List.mem_map.1 hf
  exact h.freezeAlong_regular hK [] (hvs v hv)

/-- Rows are read back from their bytes as their frozen copies. -/
theorem Heap.decodeRows_encodeRows {h : Heap} {K : ObjId → Prop} (hK : h.Region K)
    {vs : List Value} (hvs : ∀ v ∈ vs, v.Within K) (hlen : vs.length < 2 ^ 64) :
    Frozen.decodeRows (h.encodeRows vs) = .ok (vs.map h.freeze) := by
  rw [h.encodeRows_eq]
  exact Frozen.decodeRows_encodeRows (by simpa using hlen) (freezeRows_regular hK hvs)

end ResultCache
