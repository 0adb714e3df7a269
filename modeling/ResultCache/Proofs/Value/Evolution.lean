import ResultCache.Proofs.Value.Region

/-!
# Heaps that change outside a region

A heap is sound if no property names an object that does not exist; sound heaps stay sound whatever
is made or changed, as long as the new values name objects that exist. `Heap.Evolves K` is all that
can happen to a sound heap while the objects of `K` are left alone. Frozen copies of values in `K`
do not notice it, and while only new objects are made no frozen copy does (`Grows.freeze_eq`).
-/
namespace ResultCache

/-- Every object that the value names exists. -/
def Value.Known (h : Heap) (v : Value) : Prop := ∀ o, v.Refers o → o.index < h.size

/-- Every object that a property names exists. -/
def Record.Known (h : Heap) (r : Record) : Prop := ∀ p ∈ r.entries, p.2.Known h

theorem Value.Known.mono {h h' : Heap} (hh : h.size ≤ h'.size) {v : Value} (hv : v.Known h) :
    v.Known h' := fun o ho => Nat.lt_of_lt_of_le (hv o ho) hh

theorem Record.Known.mono {h h' : Heap} (hh : h.size ≤ h'.size) {r : Record} (hr : r.Known h) :
    r.Known h' := fun p hp => (hr p hp).mono hh

theorem Value.known_null (h : Heap) : Value.Known h .null := fun _ ho => by cases ho

theorem Value.Within.known {K : ObjId → Prop} {h : Heap} (hK : h.Region K) {v : Value}
    (hv : v.Within K) : v.Known h := fun _ ho => hK.exists (hv.of_refers ho)

theorem Record.Within.known {K : ObjId → Prop} {h : Heap} (hK : h.Region K) {r : Record}
    (hr : Record.Within K r) : r.Known h := fun p hp => (hr.values p hp).known hK

theorem NameMap.find_mem {α : Type} {name : String} {a : α} {l : List (String × α)}
    (ha : find name l = some a) : (name, a) ∈ l := by
  induction l with
  | nil => cases ha
  | cons q rest ih =>
    obtain ⟨m, b⟩ := q
    rw [find] at ha
    split at ha
    · rename_i hm
      subst hm
      cases ha
      exact List.mem_cons_self
    · exact List.mem_cons_of_mem _ (ih ha)

/-- An optional property of a record names objects that exist. -/
theorem Record.Known.get? {h : Heap} {r : Record} (hr : r.Known h) (name : String) :
    (Value.ofOption (NameMap.get? r name)).Known h := by
  cases hv : NameMap.get? r name with
  | none => exact Value.known_null h
  | some v => exact hr _ (NameMap.find_mem hv)

namespace Heap

/-- No property names an object that does not exist. -/
def Sound (h : Heap) : Prop := ∀ o r, h.record? o = some r → r.Known h

theorem Sound.closed {h : Heap} (hh : h.Sound) : h.Closed fun o => o.index < h.size := by
  intro o ho
  obtain ⟨r, hr⟩ := Option.isSome_iff_exists.1 (record?_isSome_iff.2 ho)
  exact ⟨r, hr, hh o r hr⟩

/-- Making objects leaves every frozen copy as it is. -/
theorem Grows.freeze_eq {h h' : Heap} (hg : h.Grows h') (hh : h.Sound) {v : Value}
    (hv : v.Known h) : h'.freeze v = h.freeze v := freeze_congr hh.closed hg.record? hv

theorem sound_empty : Heap.empty.Sound := fun o r hr => by
  rw [record?, empty] at hr
  simp at hr

/-- New objects that lead only to one another keep a heap sound. -/
theorem Grows.sound {h h' : Heap} (hg : h.Grows h') (hfresh : h'.Region (h.Fresh h'))
    (hh : h.Sound) : h'.Sound := by
  intro o r hr
  by_cases ho : o.index < h.size
  · rw [hg.record? o ho] at hr
    exact (hh o r hr).mono hg.size_le
  · obtain ⟨r', hr', hw⟩ := hfresh o ⟨Nat.not_lt.1 ho, lt_size_of_record? hr⟩
    rw [hr] at hr'
    cases hr'
    exact hw.known hfresh

theorem Sound.alloc {h : Heap} (hh : h.Sound) {r : Record} (hr : r.Known h) :
    (h.alloc r).2.Sound := by
  have hg := grows_alloc h r
  intro o r' hr'
  by_cases ho : o = (h.alloc r).1
  · subst ho
    rw [record?_alloc_self] at hr'
    cases hr'
    exact hr.mono hg.size_le
  · rw [record?_alloc_of_ne h r ho] at hr'
    exact (hh o r' hr').mono hg.size_le

theorem Sound.write {h : Heap} (hh : h.Sound) {v : Value} (hv : v.Known h) (o : ObjId)
    (name : String) : (h.write o name v).Sound := by
  have hsize : h.size ≤ (h.write o name v).size := Nat.le_of_eq (size_write h o name v).symm
  intro q r hr
  by_cases hq : q = o
  · subst hq
    rw [record?_write_self, Option.map_eq_some_iff] at hr
    obtain ⟨r₀, hr₀, rfl⟩ := hr
    intro p hp
    rcases NameMap.mem_place hp with hp | hp
    · rw [hp]
      exact hv.mono hsize
    · exact (hh q r₀ hr₀ p hp).mono hsize
  · rw [record?_write_of_ne h name v hq] at hr
    exact (hh q r hr).mono hsize

theorem read_write_self {h : Heap} {o : ObjId} (ho : o.index < h.size) (name : String)
    (v : Value) : (h.write o name v).read o name = some v := by
  obtain ⟨r, hr⟩ := Option.isSome_iff_exists.1 (record?_isSome_iff.2 ho)
  rw [read, record?_write_self, hr]
  exact NameMap.get?_insert_self r name v

theorem read_write_of_ne (h : Heap) (o : ObjId) {name other : String} (v : Value)
    (hne : other ≠ name) : (h.write o name v).read o other = h.read o other := by
  rw [read, read, record?_write_self]
  cases h.record? o with
  | none => rfl
  | some r => exact NameMap.get?_insert_of_ne r v hne

/-- What can happen to a sound heap while the objects of `K` are left alone. -/
structure Evolves (K : ObjId → Prop) (h h' : Heap) : Prop where
  size_le : h.size ≤ h'.size
  agree : AgreeOn K h h'
  sound : h'.Sound

variable {K L : ObjId → Prop} {h h' i : Heap}

theorem Evolves.refl (hh : h.Sound) : Evolves K h h := ⟨Nat.le_refl _, fun _ _ => rfl, hh⟩

theorem Evolves.trans (hi : Evolves K h i) (ij : Evolves K i h') : Evolves K h h' :=
  ⟨Nat.le_trans hi.size_le ij.size_le, hi.agree.trans ij.agree, ij.sound⟩

theorem Region.of_evolves (hK : h.Region K) (hh : Evolves K h h') : h'.Region K :=
  hK.of_agreeOn hh.agree

theorem Grows.evolves (hg : h.Grows h') (hK : h.Region K) (hs : h'.Sound) : Evolves K h h' :=
  ⟨hg.size_le, hg.agreeOn hK, hs⟩

theorem Sound.evolves_alloc (hh : h.Sound) (hK : h.Region K) {r : Record} (hr : r.Known h) :
    Evolves K h (h.alloc r).2 := (grows_alloc h r).evolves hK (hh.alloc hr)

theorem Sound.evolves_write (hh : h.Sound) {o : ObjId} (ho : ¬ K o) {v : Value} (hv : v.Known h)
    (name : String) : Evolves K h (h.write o name v) :=
  ⟨Nat.le_of_eq (size_write h o name v).symm, agreeOn_write ho name v, hh.write hv o name⟩

end Heap
end ResultCache
