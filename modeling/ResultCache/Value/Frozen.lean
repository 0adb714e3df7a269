import ResultCache.Value.Heap

/-!
# Frozen values

A frozen value is a copy that no later change to an object can reach: objects are replaced by their
properties, all the way down. Where a value leads back to an object that is being copied, the copy
has an object without properties, so a frozen value is always finite.

`Heap.freeze` copies along the path from the root: only the objects on the way down to a value are
cut, and an object that occurs twice side by side is copied twice. Main facts:
`freezeAlong_list`, `freezeAlong_object` and their companions give the copy of each kind of value,
and `Frozen.induct` is induction over frozen values.
-/
namespace ResultCache

inductive Frozen where
  | null
  | bool (b : Bool)
  | int (n : Int64)
  | float (bits : UInt64)
  | text (s : String)
  | bytes (bs : List UInt8)
  | list (fs : List Frozen)
  | object (props : List (String × Frozen))
  deriving Inhabited

namespace Frozen

def isNull : Frozen → Bool
  | .null => true
  | _ => false

mutual

/-- Decides equality, part by part. -/
def same : Frozen → Frozen → Bool
  | .null, .null => true
  | .bool a, .bool b => a = b
  | .int a, .int b => a = b
  | .float a, .float b => a = b
  | .text a, .text b => a = b
  | .bytes a, .bytes b => a = b
  | .list a, .list b => sameAll a b
  | .object a, .object b => sameProps a b
  | _, _ => false

def sameAll : List Frozen → List Frozen → Bool
  | [], [] => true
  | f :: fs, g :: gs => same f g && sameAll fs gs
  | _, _ => false

def sameProps : List (String × Frozen) → List (String × Frozen) → Bool
  | [], [] => true
  | (m, f) :: fs, (n, g) :: gs => m = n && same f g && sameProps fs gs
  | _, _ => false

end

mutual

theorem same_iff (f g : Frozen) : same f g = true ↔ f = g := by
  cases f <;> cases g <;> simp [same]
  · exact sameAll_iff _ _
  · exact sameProps_iff _ _

theorem sameAll_iff (fs gs : List Frozen) : sameAll fs gs = true ↔ fs = gs := by
  cases fs <;> cases gs <;> simp [sameAll]
  rename_i f fs g gs
  rw [same_iff f g, sameAll_iff fs gs]

theorem sameProps_iff (fs gs : List (String × Frozen)) : sameProps fs gs = true ↔ fs = gs := by
  match fs, gs with
  | [], [] => simp [sameProps]
  | [], _ :: _ => simp [sameProps]
  | _ :: _, [] => simp [sameProps]
  | (m, f) :: fs, (n, g) :: gs =>
    simp [sameProps, same_iff f g, sameProps_iff fs gs]

end

instance : DecidableEq Frozen := fun f g => decidable_of_iff _ (same_iff f g)

/-- Induction over frozen values: lists through their members, objects through their properties. -/
theorem induct {P : Frozen → Prop} (null : P .null) (bool : ∀ b, P (.bool b))
    (int : ∀ n, P (.int n)) (float : ∀ b, P (.float b)) (text : ∀ s, P (.text s))
    (bytes : ∀ bs, P (.bytes bs)) (list : ∀ fs, (∀ f ∈ fs, P f) → P (.list fs))
    (object : ∀ ps, (∀ p ∈ ps, P p.2) → P (.object ps)) (f : Frozen) : P f :=
  Frozen.rec (motive_1 := P) (motive_2 := fun fs => ∀ f ∈ fs, P f)
    (motive_3 := fun ps => ∀ p ∈ ps, P p.2) (motive_4 := fun p => P p.2)
    null bool int float text bytes list object
    (by simp) (fun _ _ h hs => by simpa using ⟨h, hs⟩)
    (by simp) (fun _ _ h hs => by
      intro p hp
      rcases List.mem_cons.1 hp with hp | hp
      · exact hp ▸ h
      · exact hs p hp)
    (fun _ _ h => h) f

end Frozen

namespace Heap

/-- The copy of a value met inside the objects of `path`. -/
def freezeAlong (h : Heap) (path : List ObjId) : Value → Frozen
  | .null => .null
  | .bool b => .bool b
  | .int n => .int n
  | .float b => .float b
  | .text s => .text s
  | .bytes bs => .bytes bs
  | .list vs => .list (vs.map fun v => h.freezeAlong path v)
  | .object o =>
    if _hp : o ∈ path then .object []
    else
      match _hr : h.record? o with
      | none => .object []
      | some r => .object (r.entries.attach.map fun p => (p.1.1, h.freezeAlong (o :: path) p.1.2))
  -- one number and not a pair, so that the kernel can run it
  termination_by v => h.unvisited path * (sizeOf h + 1) + sizeOf v
  decreasing_by
    · have := List.sizeOf_lt_of_mem ‹_›
      simp +arith at this ⊢
      omega
    · exact walk_lt _hp _hr (Subtype.property _) _

/-- The frozen copy of a value. -/
def freeze (h : Heap) (v : Value) : Frozen := h.freezeAlong [] v

theorem freezeAlong_list (h : Heap) (path : List ObjId) (vs : List Value) :
    h.freezeAlong path (.list vs) = .list (vs.map (h.freezeAlong path)) := by
  rw [freezeAlong]

/-- An object on the path is cut. -/
theorem freezeAlong_object_of_mem {h : Heap} {path : List ObjId} {o : ObjId} (ho : o ∈ path) :
    h.freezeAlong path (.object o) = .object [] := by
  rw [freezeAlong, dif_pos ho]

/-- An object off the path is copied property by property, as part of the path. -/
theorem freezeAlong_object {h : Heap} {path : List ObjId} {o : ObjId} {r : Record}
    (ho : o ∉ path) (hr : h.record? o = some r) :
    h.freezeAlong path (.object o) =
      .object (r.entries.map fun p => (p.1, h.freezeAlong (o :: path) p.2)) := by
  rw [freezeAlong, dif_neg ho]
  split
  · simp_all
  · rename_i hr'
    rw [hr] at hr'
    cases hr'
    exact congrArg _ (List.attach_map_val
      (f := fun p : String × Value => (p.1, h.freezeAlong (o :: path) p.2)))

end Heap
end ResultCache
