import Mathlib.Algebra.Group.Nat.Defs
import ResultCache.Text.Utf8
import ResultCache.Value.Frozen

/-!
# Regions of the heap

A region is a set of objects that all exist and lead only to one another. Whoever reads a value
whose objects lie in a region sees nothing outside it, so heaps that agree on the region freeze the
value alike (`freezeAlong_congr`): objects made later and changes made elsewhere do not show.

Lengths are part of the picture. A text, a byte string, a list and a record have fewer than `2 ^ 64`
bytes or members, because a machine word counts them; encodings write these counts in eight bytes.
-/
namespace ResultCache

/-- A value whose objects all belong to `K`. -/
inductive Value.Within (K : ObjId → Prop) : Value → Prop where
  | null : Within K .null
  | bool (b : Bool) : Within K (.bool b)
  | int (n : Int64) : Within K (.int n)
  | float (b : UInt64) : Within K (.float b)
  | text {s : String} (hs : (Text.encodeUtf8 s).length < 2 ^ 64) : Within K (.text s)
  | bytes {bs : List UInt8} (hs : bs.length < 2 ^ 64) : Within K (.bytes bs)
  | list {vs : List Value} (hs : vs.length < 2 ^ 64) (hvs : ∀ v ∈ vs, Within K v) :
      Within K (.list vs)
  | object {o : ObjId} (ho : K o) : Within K (.object o)

/-- A record whose values lead only to objects of `K`. -/
structure Record.Within (K : ObjId → Prop) (r : Record) : Prop where
  length : r.entries.length < 2 ^ 64
  names : ∀ p ∈ r.entries, (Text.encodeUtf8 p.1).length < 2 ^ 64
  values : ∀ p ∈ r.entries, p.2.Within K

/-- Whether a value names an object without entering any object. -/
inductive Value.Refers (o : ObjId) : Value → Prop where
  | object : Refers o (.object o)
  | list {vs : List Value} {v : Value} (hv : v ∈ vs) (hr : Refers o v) : Refers o (.list vs)

theorem Value.Within.mono {K L : ObjId → Prop} (hKL : ∀ o, K o → L o) {v : Value}
    (hv : v.Within K) : v.Within L := by
  induction hv with
  | null => exact .null
  | bool b => exact .bool b
  | int n => exact .int n
  | float b => exact .float b
  | text hs => exact .text hs
  | bytes hs => exact .bytes hs
  | list hs _ ih => exact .list hs ih
  | object ho => exact .object (hKL _ ho)

theorem Value.Within.of_refers {K : ObjId → Prop} {v : Value} {o : ObjId} (hv : v.Within K)
    (ho : v.Refers o) : K o := by
  induction ho with
  | object => cases hv with | object hK => exact hK
  | list hm _ ih => cases hv with | list _ hvs => exact ih (hvs _ hm)

/-- Only the objects that a value names matter to where it lies. -/
theorem Value.Within.of_forall_refers {K L : ObjId → Prop} {v : Value} (hv : v.Within K)
    (hL : ∀ o, v.Refers o → L o) : v.Within L := by
  induction hv with
  | null => exact .null
  | bool b => exact .bool b
  | int n => exact .int n
  | float b => exact .float b
  | text hs => exact .text hs
  | bytes hs => exact .bytes hs
  | list hs _ ih => exact .list hs fun v hm => ih v hm fun o ho => hL o (.list hm ho)
  | object ho => exact .object (hL _ .object)

theorem Record.Within.mono {K L : ObjId → Prop} (hKL : ∀ o, K o → L o) {r : Record}
    (hr : Record.Within K r) : Record.Within L r :=
  ⟨hr.length, hr.names, fun p hp => (hr.values p hp).mono hKL⟩

namespace Heap

/-- The objects of `K` exist and lead only to objects of `K`. -/
def Region (h : Heap) (K : ObjId → Prop) : Prop :=
  ∀ o, K o → ∃ r, h.record? o = some r ∧ Record.Within K r

/-- The objects of `K` have the same properties in both heaps. -/
def AgreeOn (K : ObjId → Prop) (h h' : Heap) : Prop := ∀ o, K o → h'.record? o = h.record? o

/-- Objects may have been made in between, but none was changed. -/
structure Grows (h h' : Heap) : Prop where
  size_le : h.size ≤ h'.size
  record? : ∀ o, o.index < h.size → h'.record? o = h.record? o

/-- The objects of `h'` that are not in `h`. -/
def Fresh (h h' : Heap) (o : ObjId) : Prop := h.size ≤ o.index ∧ o.index < h'.size

theorem Grows.refl (h : Heap) : h.Grows h := ⟨Nat.le_refl _, fun _ _ => rfl⟩

theorem Grows.trans {h i j : Heap} (hi : h.Grows i) (ij : i.Grows j) : h.Grows j := by
  refine ⟨Nat.le_trans hi.size_le ij.size_le, fun o ho => ?_⟩
  have hlt : o.index < i.size := Nat.lt_of_lt_of_le ho hi.size_le
  rw [ij.record? o hlt, hi.record? o ho]

theorem grows_alloc (h : Heap) (r : Record) : h.Grows (h.alloc r).2 := by
  refine ⟨by simp, fun o ho => record?_alloc_of_ne h r fun he => ?_⟩
  rw [he] at ho
  exact Nat.lt_irrefl _ ho

theorem Region.exists {h : Heap} {K : ObjId → Prop} (hK : h.Region K) {o : ObjId} (ho : K o) :
    o.index < h.size := by
  obtain ⟨r, hr, -⟩ := hK o ho
  exact lt_size_of_record? hr

theorem Region.of_agreeOn {h h' : Heap} {K : ObjId → Prop} (hK : h.Region K)
    (hh : AgreeOn K h h') : h'.Region K := by
  intro o ho
  obtain ⟨r, hr, hw⟩ := hK o ho
  exact ⟨r, (hh o ho).trans hr, hw⟩

theorem Grows.agreeOn {h h' : Heap} {K : ObjId → Prop} (hh : h.Grows h') (hK : h.Region K) :
    AgreeOn K h h' := fun o ho => hh.record? o (hK.exists ho)

theorem Region.of_grows {h h' : Heap} {K : ObjId → Prop} (hK : h.Region K) (hh : h.Grows h') :
    h'.Region K := hK.of_agreeOn (hh.agreeOn hK)

theorem Region.or {h : Heap} {K L : ObjId → Prop} (hK : h.Region K) (hL : h.Region L) :
    h.Region (fun o => K o ∨ L o) := by
  intro o ho
  rcases ho with ho | ho
  · obtain ⟨r, hr, hw⟩ := hK o ho
    exact ⟨r, hr, hw.mono fun _ => .inl⟩
  · obtain ⟨r, hr, hw⟩ := hL o ho
    exact ⟨r, hr, hw.mono fun _ => .inr⟩

theorem region_empty (h : Heap) : h.Region (fun _ => False) := fun _ ho => ho.elim

/-- Writing to an object outside a region leaves the region as it is. -/
theorem agreeOn_write {h : Heap} {K : ObjId → Prop} {o : ObjId} (ho : ¬ K o) (name : String)
    (v : Value) : AgreeOn K h (h.write o name v) := by
  intro p hp
  exact record?_write_of_ne h name v fun he => ho (he ▸ hp)

theorem AgreeOn.trans {K : ObjId → Prop} {h i j : Heap} (hi : AgreeOn K h i) (ij : AgreeOn K i j) :
    AgreeOn K h j := fun o ho => (ij o ho).trans (hi o ho)

/-- The objects of `K` exist and their properties name only objects of `K`. -/
def Closed (h : Heap) (K : ObjId → Prop) : Prop :=
  ∀ o, K o → ∃ r, h.record? o = some r ∧ ∀ p ∈ r.entries, ∀ q, p.2.Refers q → K q

theorem Region.closed {h : Heap} {K : ObjId → Prop} (hK : h.Region K) : h.Closed K := by
  intro o ho
  obtain ⟨r, hr, hw⟩ := hK o ho
  exact ⟨r, hr, fun p hp q hq => (hw.values p hp).of_refers hq⟩

/-- A frozen copy depends on the objects in reach of the value alone, and of the objects on the way
only on those in reach. -/
theorem freezeAlong_congr {h h' : Heap} {K : ObjId → Prop} (hK : h.Closed K)
    (hh : AgreeOn K h h') {path path' : List ObjId} (hp : ∀ o, K o → (o ∈ path' ↔ o ∈ path))
    {v : Value} (hv : ∀ o, v.Refers o → K o) : h'.freezeAlong path' v = h.freezeAlong path v := by
  induction path, v using Heap.freezeAlong.induct h generalizing path' with
  | case1 => rw [freezeAlong, freezeAlong]
  | case2 => rw [freezeAlong, freezeAlong]
  | case3 => rw [freezeAlong, freezeAlong]
  | case4 => rw [freezeAlong, freezeAlong]
  | case5 => rw [freezeAlong, freezeAlong]
  | case6 => rw [freezeAlong, freezeAlong]
  | case7 path vs ih =>
    rw [freezeAlong_list, freezeAlong_list,
      List.map_congr_left fun v hm => ih v hm hp fun o ho => hv o (.list hm ho)]
  | case8 path o ho =>
    rw [freezeAlong_object_of_mem ho, freezeAlong_object_of_mem ((hp o (hv o .object)).2 ho)]
  | case9 path o ho hr =>
    obtain ⟨r, hr', -⟩ := hK o (hv o .object)
    rw [hr] at hr'
    cases hr'
  | case10 path o ho r hr ih =>
    have hKo : K o := hv o .object
    obtain ⟨r', hr', hw⟩ := hK o hKo
    rw [hr] at hr'
    cases hr'
    have ho' : o ∉ path' := fun hm => ho ((hp o hKo).1 hm)
    have hpath : ∀ q, K q → (q ∈ o :: path' ↔ q ∈ o :: path) := by
      intro q hq
      rw [List.mem_cons, List.mem_cons, hp q hq]
    rw [freezeAlong_object ho hr, freezeAlong_object ho' ((hh o hKo).trans hr)]
    congr 1
    exact List.map_congr_left fun p hm => by rw [ih ⟨p, hm⟩ hpath (hw p hm)]

theorem freeze_congr {h h' : Heap} {K : ObjId → Prop} (hK : h.Closed K) (hh : AgreeOn K h h')
    {v : Value} (hv : ∀ o, v.Refers o → K o) : h'.freeze v = h.freeze v :=
  freezeAlong_congr hK hh (fun _ _ => Iff.rfl) hv

theorem map_freeze_congr {h h' : Heap} {K : ObjId → Prop} (hK : h.Region K) (hh : AgreeOn K h h')
    {vs : List Value} (hvs : ∀ v ∈ vs, v.Within K) : vs.map h'.freeze = vs.map h.freeze :=
  List.map_congr_left fun v hm => freeze_congr hK.closed hh fun _ => (hvs v hm).of_refers

/-- Whether a property of an object names another. -/
def LeadsTo (h : Heap) (o q : ObjId) : Prop :=
  ∃ r, h.record? o = some r ∧ ∃ p ∈ r.entries, p.2.Refers q

/-- The objects that are met from some objects on, going from property to property. -/
inductive Reaches (h : Heap) (roots : ObjId → Prop) : ObjId → Prop where
  | root {o : ObjId} (ho : roots o) : Reaches h roots o
  | step {o q : ObjId} (ho : Reaches h roots o) (hq : h.LeadsTo o q) : Reaches h roots q

theorem Region.of_leadsTo {h : Heap} {K : ObjId → Prop} (hK : h.Region K) {o q : ObjId}
    (ho : K o) (hq : h.LeadsTo o q) : K q := by
  obtain ⟨r, hr, p, hp, hpq⟩ := hq
  obtain ⟨r', hr', hw⟩ := hK o ho
  rw [hr] at hr'
  cases hr'
  exact (hw.values p hp).of_refers hpq

/-- Whatever is met from inside a region lies inside it. -/
theorem Region.of_reaches {h : Heap} {K roots : ObjId → Prop} (hK : h.Region K)
    (hroots : ∀ o, roots o → K o) {o : ObjId} (ho : h.Reaches roots o) : K o := by
  induction ho with
  | root ho => exact hroots _ ho
  | step _ hq ih => exact hK.of_leadsTo ih hq

/-- The objects that are met from inside a region are a region themselves. -/
theorem Region.reaches {h : Heap} {K roots : ObjId → Prop} (hK : h.Region K)
    (hroots : ∀ o, roots o → K o) : h.Region (h.Reaches roots) := by
  intro o ho
  obtain ⟨r, hr, hw⟩ := hK o (hK.of_reaches hroots ho)
  exact ⟨r, hr, hw.length, hw.names,
    fun p hp => (hw.values p hp).of_forall_refers fun q hq => .step ho ⟨r, hr, p, hp, hq⟩⟩

/-- The objects that some values name. -/
def named (vs : List Value) (o : ObjId) : Prop := ∃ v ∈ vs, v.Refers o

theorem within_reaches {h : Heap} {K : ObjId → Prop} {vs : List Value}
    (hvs : ∀ v ∈ vs, v.Within K) : ∀ v ∈ vs, v.Within (h.Reaches (named vs)) :=
  fun v hm => (hvs v hm).of_forall_refers fun _ ho => .root ⟨v, hm, ho⟩

end Heap

/-- A frozen value as every copy is: its objects list their properties in order of name, and its
lengths can be counted. -/
inductive Frozen.Regular : Frozen → Prop where
  | null : Regular .null
  | bool (b : Bool) : Regular (.bool b)
  | int (n : Int64) : Regular (.int n)
  | float (b : UInt64) : Regular (.float b)
  | text {s : String} (hs : (Text.encodeUtf8 s).length < 2 ^ 64) : Regular (.text s)
  | bytes {bs : List UInt8} (hs : bs.length < 2 ^ 64) : Regular (.bytes bs)
  | list {fs : List Frozen} (hs : fs.length < 2 ^ 64) (hfs : ∀ f ∈ fs, Regular f) :
      Regular (.list fs)
  | object {ps : List (String × Frozen)} (hs : ps.length < 2 ^ 64)
      (sorted : ps.Pairwise (fun a b => a.1 < b.1))
      (names : ∀ p ∈ ps, (Text.encodeUtf8 p.1).length < 2 ^ 64) (hps : ∀ p ∈ ps, Regular p.2) :
      Regular (.object ps)

theorem Frozen.regular_object_nil : Frozen.Regular (.object []) :=
  .object (by simp) .nil (by simp) (by simp)

/-- A copy out of a region is regular. -/
theorem Heap.freezeAlong_regular {h : Heap} {K : ObjId → Prop} (hK : h.Region K)
    (path : List ObjId) {v : Value} (hv : v.Within K) : (h.freezeAlong path v).Regular := by
  induction path, v using Heap.freezeAlong.induct h with
  | case1 => rw [freezeAlong]; exact .null
  | case2 => rw [freezeAlong]; exact .bool _
  | case3 => rw [freezeAlong]; exact .int _
  | case4 => rw [freezeAlong]; exact .float _
  | case5 => cases hv with | text hs => rw [freezeAlong]; exact .text hs
  | case6 => cases hv with | bytes hs => rw [freezeAlong]; exact .bytes hs
  | case7 path vs ih =>
    cases hv with | list hs hvs =>
    rw [freezeAlong_list]
    refine .list (by simpa using hs) fun f hf => ?_
    obtain ⟨v, hm, rfl⟩ := List.mem_map.1 hf
    exact ih v hm (hvs v hm)
  | case8 path o ho => rw [freezeAlong_object_of_mem ho]; exact Frozen.regular_object_nil
  | case9 path o ho hr =>
    cases hv with | object hKo =>
    obtain ⟨r, hr', -⟩ := hK o hKo
    rw [hr] at hr'
    cases hr'
  | case10 path o ho r hr ih =>
    cases hv with | object hKo =>
    obtain ⟨r', hr', hw⟩ := hK o hKo
    rw [hr] at hr'
    cases hr'
    rw [freezeAlong_object ho hr]
    refine .object (by simpa using hw.length) (List.pairwise_map.2 r.sorted) ?_ ?_
    · intro p hp
      obtain ⟨q, hq, rfl⟩ := List.mem_map.1 hp
      exact hw.names q hq
    · intro p hp
      obtain ⟨q, hq, rfl⟩ := List.mem_map.1 hp
      exact ih ⟨q, hq⟩ (hw.values q hq)

end ResultCache
