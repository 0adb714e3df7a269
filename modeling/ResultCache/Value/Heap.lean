import ResultCache.Value.Basic

/-!
# The heap of objects

Objects are created with their first properties and then changed one property at a time; nothing
ever removes an object. A `Heap` holds the properties of every object made so far, and the identity
of a new object is one that no earlier object has.

Main facts: `record?_alloc_self` and `record?_alloc_of_ne` for creation, `record?_write_self` and
`record?_write_of_ne` for a change, and `unvisited_cons_lt` and `walk_lt` for the measures that bound
every walk which does not enter an object it is already inside.
-/
namespace ResultCache

structure Heap where
  records : Array Record
  deriving Inhabited

namespace Heap

def empty : Heap := ⟨#[]⟩

def size (h : Heap) : Nat := h.records.size

/-- The properties of an object, if it exists. -/
def record? (h : Heap) (o : ObjId) : Option Record := h.records[o.index]?

/-- One property of an object. -/
def read (h : Heap) (o : ObjId) (name : String) : Option Value :=
  (h.record? o).bind (·.get? name)

/-- A new object with the given properties. -/
def alloc (h : Heap) (r : Record) : ObjId × Heap := (⟨h.size⟩, ⟨h.records.push r⟩)

/-- Sets one property of an object. -/
def write (h : Heap) (o : ObjId) (name : String) (v : Value) : Heap :=
  ⟨h.records.modify o.index (·.insert name v)⟩

@[simp] theorem size_alloc (h : Heap) (r : Record) : (h.alloc r).2.size = h.size + 1 := by
  simp [alloc, size]

@[simp] theorem size_write (h : Heap) (o : ObjId) (name : String) (v : Value) :
    (h.write o name v).size = h.size := by
  simp [write, size]

theorem record?_isSome_iff {h : Heap} {o : ObjId} : (h.record? o).isSome ↔ o.index < h.size := by
  simp [record?, size]

theorem lt_size_of_record? {h : Heap} {o : ObjId} {r : Record} (hr : h.record? o = some r) :
    o.index < h.size :=
  record?_isSome_iff.1 (by simp [hr])

@[simp] theorem record?_alloc_self (h : Heap) (r : Record) :
    (h.alloc r).2.record? (h.alloc r).1 = some r := by
  simp [alloc, record?, size]

theorem record?_alloc_of_ne (h : Heap) (r : Record) {o : ObjId} (ho : o ≠ (h.alloc r).1) :
    (h.alloc r).2.record? o = h.record? o := by
  have : o.index ≠ h.records.size := fun he => ho (by cases o; simp_all [alloc, size])
  simp [alloc, record?, Array.getElem?_push, this]

@[simp] theorem record?_write_self (h : Heap) (o : ObjId) (name : String) (v : Value) :
    (h.write o name v).record? o = (h.record? o).map (·.insert name v) := by
  simp [write, record?, Array.getElem?_modify]

theorem record?_write_of_ne (h : Heap) {o p : ObjId} (name : String) (v : Value) (hp : p ≠ o) :
    (h.write o name v).record? p = h.record? p := by
  have : o.index ≠ p.index := fun he => hp (by cases o; cases p; simp_all)
  simp [write, record?, Array.getElem?_modify, this]

/-- How many objects are not among the given ones. -/
def unvisited (h : Heap) (path : List ObjId) : Nat :=
  (List.range h.size).countP (fun i => decide (⟨i⟩ ∉ path))

/-- A stronger test that fails where a weaker one holds is met less often. -/
theorem countP_lt_of_imp {l : List Nat} {p q : Nat → Bool} (hpq : ∀ i, p i = true → q i = true)
    {i : Nat} (hi : i ∈ l) (hq : q i = true) (hp : p i = false) : l.countP p < l.countP q := by
  induction l with
  | nil => simp at hi
  | cons j l ih =>
    rw [List.countP_cons, List.countP_cons]
    rcases List.mem_cons.1 hi with h | h
    · subst h
      have := List.countP_mono_left (l := l) (p := p) (q := q) fun i _ => hpq i
      simp only [hq, hp, if_true, Bool.false_eq_true, if_false]
      omega
    · have := ih h
      by_cases hj : p j = true
      · simp only [hj, hpq j hj, if_true]
        omega
      · simp only [hj, Bool.false_eq_true, if_false]
        omega

/-- Entering an object that is not on the path leaves fewer objects to enter. -/
theorem unvisited_cons_lt {h : Heap} {path : List ObjId} {o : ObjId} (ho : o.index < h.size)
    (hp : o ∉ path) : h.unvisited (o :: path) < h.unvisited path :=
  countP_lt_of_imp (by simp +contextual) (List.mem_range.2 ho) (by simpa using hp) (by simp)

theorem sizeOf_property_lt {h : Heap} {o : ObjId} {r : Record} {p : String × Value}
    (hr : h.record? o = some r) (hp : p ∈ r.entries) : sizeOf p.2 < sizeOf h := by
  have hrecord := Array.sizeOf_lt_of_mem (Array.mem_of_getElem? hr)
  have hentry := List.sizeOf_lt_of_mem hp
  cases h
  cases r
  cases p
  simp +arith at hrecord hentry ⊢
  omega

/-- So a walk that enters it has less before it, whatever the values in the object are. -/
theorem walk_lt {h : Heap} {path : List ObjId} {o : ObjId} {r : Record} {p : String × Value}
    (ho : o ∉ path) (hr : h.record? o = some r) (hp : p ∈ r.entries) (n : Nat) :
    h.unvisited (o :: path) * (sizeOf h + 1) + sizeOf p.2 <
      h.unvisited path * (sizeOf h + 1) + n := by
  have hsize := sizeOf_property_lt hr hp
  have hfewer : (h.unvisited (o :: path) + 1) * (sizeOf h + 1) ≤
      h.unvisited path * (sizeOf h + 1) :=
    Nat.mul_le_mul_right _ (unvisited_cons_lt (lt_size_of_record? hr) ho)
  rw [Nat.succ_mul] at hfewer
  omega

end Heap
end ResultCache
