import ResultCache.Value.Frozen

/-!
# Outlines

An outline writes a value out in full: an object stands there with its properties, except where it
is left as a bare reference. Outlines serve both ways.

* `Heap.outline` is what a reader sees that holds an object while it is inside it and may not enter
  an object that is held: each object spelled out, each way back to a held object left as a
  reference. All texts and encodings of values are functions of the outline, so none of them can
  run in circles.
* `Outline.build` makes a value from an outline: every object that is spelled out becomes a new
  object, every reference is the object it names, shared and not copied.

A frozen value is an outline without references (`Frozen.outline`), and `Frozen.thaw` makes fresh
objects of it.
-/
namespace ResultCache

inductive Outline where
  | null
  | bool (b : Bool)
  | int (n : Int64)
  | float (bits : UInt64)
  | text (s : String)
  | bytes (bs : List UInt8)
  | list (ls : List Outline)
  | object (props : List (String × Outline))
  | ref (o : ObjId)
  deriving Inhabited

namespace Heap

/-- What is seen of a value by a reader that already holds the objects of `held`. -/
def outlineHolding (h : Heap) (held : List ObjId) : Value → Outline
  | .null => .null
  | .bool b => .bool b
  | .int n => .int n
  | .float b => .float b
  | .text s => .text s
  | .bytes bs => .bytes bs
  | .list vs => .list (vs.map fun v => h.outlineHolding held v)
  | .object o =>
    if _hp : o ∈ held then .ref o
    else
      match _hr : h.record? o with
      | none => .ref o
      | some r =>
        .object (r.entries.attach.map fun p => (p.1.1, h.outlineHolding (o :: held) p.1.2))
  termination_by v => h.unvisited held * (sizeOf h + 1) + sizeOf v
  decreasing_by
    · have := List.sizeOf_lt_of_mem ‹_›
      simp +arith at this ⊢
      omega
    · exact walk_lt _hp _hr (Subtype.property _) _

/-- What is seen of a value by a reader that holds no object yet. -/
def outline (h : Heap) (v : Value) : Outline := h.outlineHolding [] v

theorem outlineHolding_list (h : Heap) (held : List ObjId) (vs : List Value) :
    h.outlineHolding held (.list vs) = .list (vs.map (h.outlineHolding held)) := by
  rw [outlineHolding]

theorem outlineHolding_object_of_mem {h : Heap} {held : List ObjId} {o : ObjId} (ho : o ∈ held) :
    h.outlineHolding held (.object o) = .ref o := by
  rw [outlineHolding, dif_pos ho]

theorem outlineHolding_object {h : Heap} {held : List ObjId} {o : ObjId} {r : Record}
    (ho : o ∉ held) (hr : h.record? o = some r) :
    h.outlineHolding held (.object o) =
      .object (r.entries.map fun p => (p.1, h.outlineHolding (o :: held) p.2)) := by
  rw [outlineHolding, dif_neg ho]
  split
  · simp_all
  · rename_i hr'
    rw [hr] at hr'
    cases hr'
    exact congrArg _ (List.attach_map_val
      (f := fun p : String × Value => (p.1, h.outlineHolding (o :: held) p.2)))

end Heap

namespace Outline

mutual

/-- The value an outline describes, with a new object for every object that is spelled out. The
objects inside an object are made before it. -/
def build : Outline → Heap → Value × Heap
  | .null, h => (.null, h)
  | .bool b, h => (.bool b, h)
  | .int n, h => (.int n, h)
  | .float b, h => (.float b, h)
  | .text s, h => (.text s, h)
  | .bytes bs, h => (.bytes bs, h)
  | .list ls, h =>
    let (vs, h) := buildAll ls h
    (.list vs, h)
  | .object props, h =>
    let (pairs, h) := buildProps props h
    let (o, h) := h.alloc (.ofList pairs)
    (.object o, h)
  | .ref o, h => (.object o, h)

def buildAll : List Outline → Heap → List Value × Heap
  | [], h => ([], h)
  | l :: ls, h =>
    let (v, h) := build l h
    let (vs, h) := buildAll ls h
    (v :: vs, h)

def buildProps : List (String × Outline) → Heap → List (String × Value) × Heap
  | [], h => ([], h)
  | (name, l) :: props, h =>
    let (v, h) := build l h
    let (pairs, h) := buildProps props h
    ((name, v) :: pairs, h)

end

/-- The row an outline of its columns describes. -/
def buildRecord (props : List (String × Outline)) (h : Heap) : Record × Heap :=
  let (pairs, h) := buildProps props h
  (.ofList pairs, h)

/-- The rows that outlines of their columns describe, in order. -/
def buildRecords : List (List (String × Outline)) → Heap → List Record × Heap
  | [], h => ([], h)
  | props :: rows, h =>
    let (r, h) := buildRecord props h
    let (rs, h) := buildRecords rows h
    (r :: rs, h)

end Outline

namespace Frozen

mutual

/-- A frozen value as an outline: nothing in it is a reference. -/
def outline : Frozen → Outline
  | .null => .null
  | .bool b => .bool b
  | .int n => .int n
  | .float b => .float b
  | .text s => .text s
  | .bytes bs => .bytes bs
  | .list fs => .list (outlineAll fs)
  | .object props => .object (outlineProps props)

def outlineAll : List Frozen → List Outline
  | [] => []
  | f :: fs => outline f :: outlineAll fs

def outlineProps : List (String × Frozen) → List (String × Outline)
  | [] => []
  | (name, f) :: props => (name, outline f) :: outlineProps props

end

/-- A value made of new objects only. -/
def thaw (f : Frozen) (h : Heap) : Value × Heap := f.outline.build h

/-- Values made of new objects only. -/
def thawAll (fs : List Frozen) (h : Heap) : List Value × Heap := Outline.buildAll (outlineAll fs) h

end Frozen
end ResultCache
