import Mathlib.Data.List.Infix
import ResultCache.Proofs.Value.Codec

/-!
# The tree a value unfolds into

Seen from outside, a value is a tree: at its own place it shows a scalar, the length of a list or
the names of the properties of an object (`Label`), and it has parts, which are reached by a number
for each step inwards (`Place`). `Heap.unfolding` gives what is seen at each place. The tree of an
object that leads back to itself is infinite; no identity is seen in it.

A frozen copy is a finite tree of the same kind (`Frozen.shape`), and a frozen value is what it
shows (`Frozen.eq_of_shape`). The copy of a value is its unfolding, cut exactly where the way to a
place comes to an object that it has led through already (`Heap.shape_freezeAlong`).

The copying procedure knows these objects from a stack, on which it puts an object before it copies
the properties and from which it takes it afterwards. `Heap.CopiesTo` is a run of the procedure as
it handles the stack. Each run ends with the stack it started with, whatever it has copied, and
every value has exactly one (`Heap.copiesTo_iff`).
-/
namespace ResultCache

/-- What a value shows at its own place, without what is inside it. -/
inductive Label where
  | null
  | bool (b : Bool)
  | int (n : Int64)
  | float (bits : UInt64)
  | text (s : String)
  | bytes (bs : List UInt8)
  | list (length : Nat)
  | object (names : List String)
  deriving DecidableEq

/-- How many parts a label has room for. -/
def Label.arity : Label → Nat
  | list n => n
  | object names => names.length
  | _ => 0

/-- The way to a part: which member or property to enter next, from the outside in. -/
abbrev Place := List Nat

section Parts

variable {α : Type} (inside : α → List α)

/-- The part at a place, where `inside` lists the parts directly inside a part. -/
def partAt (a : α) : Place → Option α
  | [] => some a
  | i :: place => (inside a)[i]?.bind fun b => partAt b place

theorem partAt_append (a : α) (outer inner : Place) :
    partAt inside a (outer ++ inner) =
      (partAt inside a outer).bind fun b => partAt inside b inner := by
  induction outer generalizing a with
  | nil => rfl
  | cons i outer ih =>
    rw [List.cons_append, partAt, partAt, Option.bind_assoc]
    simp only [ih]

end Parts

namespace Frozen

def label : Frozen → Label
  | null => .null
  | bool b => .bool b
  | int n => .int n
  | float bits => .float bits
  | text s => .text s
  | bytes bs => .bytes bs
  | list fs => .list fs.length
  | object ps => .object (ps.map (·.1))

def inside : Frozen → List Frozen
  | list fs => fs
  | object ps => ps.map (·.2)
  | _ => []

/-- What a frozen value shows at each place. -/
def shape (f : Frozen) (place : Place) : Option Label := (partAt inside f place).map label

variable {f g : Frozen}

theorem shape_nil (f : Frozen) : f.shape [] = some f.label := rfl

theorem shape_cons (f : Frozen) (i : Nat) (place : Place) :
    f.shape (i :: place) = f.inside[i]?.bind fun g => g.shape place := by
  rw [shape, partAt, Option.map_bind]
  rfl

theorem eq_of_inside (hlabel : f.label = g.label) (hinside : f.inside = g.inside) : f = g := by
  cases f with
  | object ps =>
    cases g with
    | object qs =>
      have hnames : ps.map (·.1) = qs.map (·.1) := by simpa [label] using hlabel
      have hzip : (ps.map (·.1)).zip (ps.map (·.2)) = (qs.map (·.1)).zip (qs.map (·.2)) := by
        rw [hnames]
        exact congrArg _ hinside
      rw [List.zip_map', List.zip_map'] at hzip
      simpa using hzip
    | _ => simp [label] at hlabel
  | list fs => cases g <;> simp_all [label, inside]
  | _ => cases g <;> simp_all [label]

theorem label_eq_of_shape (h : f.shape = g.shape) : f.label = g.label :=
  Option.some.inj (congrFun h [])

/-- Frozen values that show the same have the same parts, if those are known by what they show. -/
theorem inside_eq_of_shape (h : f.shape = g.shape)
    (hparts : ∀ a ∈ f.inside, ∀ b : Frozen, a.shape = b.shape → a = b) :
    f.inside = g.inside := by
  refine List.ext_getElem? fun i => ?_
  have hi : ∀ place, f.shape (i :: place) = g.shape (i :: place) := fun place => congrFun h _
  simp only [shape_cons] at hi
  cases hf : f.inside[i]? with
  | none =>
    cases hg : g.inside[i]? with
    | none => rfl
    | some b =>
      have hroot := hi []
      rw [hf, hg] at hroot
      cases hroot
  | some a =>
    cases hg : g.inside[i]? with
    | none =>
      have hroot := hi []
      rw [hf, hg] at hroot
      cases hroot
    | some b =>
      rw [hf, hg] at hi
      rw [hparts a (List.mem_of_getElem? hf) b (funext hi)]

/-- A frozen value is what it shows. -/
theorem eq_of_shape (h : f.shape = g.shape) : f = g := by
  have hlabel := label_eq_of_shape h
  induction f using Frozen.induct generalizing g with
  | list fs ih =>
    exact eq_of_inside hlabel (inside_eq_of_shape h fun a ha b hab =>
      ih a ha hab (label_eq_of_shape hab))
  | object ps ih =>
    refine eq_of_inside hlabel (inside_eq_of_shape h fun a ha b hab => ?_)
    obtain ⟨p, hp, rfl⟩ := List.mem_map.1 ha
    exact ih p hp hab (label_eq_of_shape hab)
  | _ => exact eq_of_inside hlabel (inside_eq_of_shape h fun _ ha => by cases ha)

end Frozen

namespace Value

/-- Whether a value is one of some objects. -/
def IsIn (path : List ObjId) (v : Value) : Prop := ∃ o ∈ path, v = .object o

/-- The way into a value leads through the value itself if it is an object. -/
def enter : Value → List ObjId → List ObjId
  | .object o, path => o :: path
  | _, path => path

theorem mem_enter {v : Value} {path : List ObjId} {o : ObjId} :
    o ∈ v.enter path ↔ v = .object o ∨ o ∈ path := by
  cases v <;> simp [enter, eq_comm]

end Value

namespace Heap

/-- The properties of an object. An object that does not exist has none. -/
def props (h : Heap) (o : ObjId) : List (String × Value) := (h.record? o).elim [] (·.entries)

def label (h : Heap) : Value → Label
  | .null => .null
  | .bool b => .bool b
  | .int n => .int n
  | .float bits => .float bits
  | .text s => .text s
  | .bytes bs => .bytes bs
  | .list vs => .list vs.length
  | .object o => .object ((h.props o).map (·.1))

def inside (h : Heap) : Value → List Value
  | .list vs => vs
  | .object o => (h.props o).map (·.2)
  | _ => []

/-- The value at a place. -/
def at? (h : Heap) (v : Value) (place : Place) : Option Value := partAt h.inside v place

/-- The tree that a value unfolds into. -/
def unfolding (h : Heap) (v : Value) (place : Place) : Option Label := (h.at? v place).map h.label

variable {h : Heap} {v w : Value} {path : List ObjId} {o : ObjId} {place : Place}

theorem props_of_record? {r : Record} (hr : h.record? o = some r) : h.props o = r.entries := by
  rw [props, hr]
  rfl

theorem length_inside (h : Heap) (v : Value) : (h.inside v).length = (h.label v).arity := by
  cases v <;> simp [inside, label, Label.arity]

theorem at?_cons (h : Heap) (v : Value) (i : Nat) (place : Place) :
    h.at? v (i :: place) = (h.inside v)[i]?.bind fun w => h.at? w place := rfl

theorem unfolding_cons (h : Heap) (v : Value) (i : Nat) (place : Place) :
    h.unfolding v (i :: place) = (h.inside v)[i]?.bind fun w => h.unfolding w place := by
  rw [unfolding, at?_cons, Option.map_bind]
  rfl

/-- Whether the way to a place leads through an object. -/
def Around (h : Heap) (v : Value) (place : Place) (o : ObjId) : Prop :=
  ∃ outer, outer <+: place ∧ outer ≠ place ∧ h.at? v outer = some (.object o)

/-- Whether there is an object at a place that the way to the place has led through already, or
that is on the path to the value. -/
def Reenters (h : Heap) (path : List ObjId) (v : Value) (place : Place) : Prop :=
  ∃ o, h.at? v place = some (.object o) ∧ (o ∈ path ∨ h.Around v place o)

/-- Whether the way to a place leads on from a place where it comes to an object again. -/
def Crosses (h : Heap) (path : List ObjId) (v : Value) (place : Place) : Prop :=
  ∃ outer, outer <+: place ∧ outer ≠ place ∧ h.Reenters path v outer

open Classical in
/-- The unfolding of a value met inside the objects of `path`, with an object without properties at
exactly those places where the way comes to an object again. -/
noncomputable def cutUnfolding (h : Heap) (path : List ObjId) (v : Value) (place : Place) :
    Option Label :=
  if h.Crosses path v place then none
  else if h.Reenters path v place then some (.object [])
  else h.unfolding v place

theorem around_nil : ¬ h.Around v [] o := by
  rintro ⟨outer, hle, hne, -⟩
  exact hne (List.prefix_nil.1 hle)

theorem around_cons {i : Nat} : h.Around v (i :: place) o ↔
    v = .object o ∨ ∃ w, (h.inside v)[i]? = some w ∧ h.Around w place o := by
  constructor
  · rintro ⟨outer, hle, hne, ho⟩
    rcases List.prefix_cons_iff.1 hle with rfl | ⟨inner, rfl, hinner⟩
    · exact .inl (Option.some.inj ho)
    · obtain ⟨w, hw, ho⟩ := Option.bind_eq_some_iff.1 ho
      exact .inr ⟨w, hw, inner, hinner, fun he => hne (he ▸ rfl), ho⟩
  · rintro (rfl | ⟨w, hw, inner, hle, hne, ho⟩)
    · exact ⟨[], List.nil_prefix, by simp, rfl⟩
    · refine ⟨i :: inner, by simpa using hle, by simpa using hne, ?_⟩
      rw [at?_cons, hw]
      exact ho

theorem reenters_nil : h.Reenters path v [] ↔ v.IsIn path := by
  constructor
  · rintro ⟨o, ho, hpath⟩
    exact ⟨o, hpath.resolve_right around_nil, Option.some.inj ho⟩
  · rintro ⟨o, ho, rfl⟩
    exact ⟨o, rfl, .inl ho⟩

theorem reenters_cons {i : Nat} : h.Reenters path v (i :: place) ↔
    ∃ w, (h.inside v)[i]? = some w ∧ h.Reenters (v.enter path) w place := by
  simp only [Reenters, at?_cons, around_cons, Option.bind_eq_some_iff, Value.mem_enter]
  constructor
  · rintro ⟨o, ⟨w, hw, ho⟩, hpath⟩
    refine ⟨w, hw, o, ho, ?_⟩
    rcases hpath with hpath | rfl | ⟨w', hw', hpath⟩
    · exact .inl (.inr hpath)
    · exact .inl (.inl rfl)
    · rw [hw] at hw'
      cases hw'
      exact .inr hpath
  · rintro ⟨w, hw, o, ho, hpath⟩
    refine ⟨o, ⟨w, hw, ho⟩, ?_⟩
    rcases hpath with (rfl | hpath) | hpath
    · exact .inr (.inl rfl)
    · exact .inl hpath
    · exact .inr (.inr ⟨w, hw, hpath⟩)

theorem crosses_nil : ¬ h.Crosses path v [] := by
  rintro ⟨outer, hle, hne, -⟩
  exact hne (List.prefix_nil.1 hle)

theorem crosses_cons {i : Nat} : h.Crosses path v (i :: place) ↔ v.IsIn path ∨
    ∃ w, (h.inside v)[i]? = some w ∧ h.Crosses (v.enter path) w place := by
  constructor
  · rintro ⟨outer, hle, hne, ho⟩
    rcases List.prefix_cons_iff.1 hle with rfl | ⟨inner, rfl, hinner⟩
    · exact .inl (reenters_nil.1 ho)
    · obtain ⟨w, hw, ho⟩ := reenters_cons.1 ho
      exact .inr ⟨w, hw, inner, hinner, fun he => hne (he ▸ rfl), ho⟩
  · rintro (hv | ⟨w, hw, inner, hle, hne, ho⟩)
    · exact ⟨[], List.nil_prefix, by simp, reenters_nil.2 hv⟩
    · exact ⟨i :: inner, (List.prefix_cons_inj i).2 hle, by simpa using hne,
        reenters_cons.2 ⟨w, hw, ho⟩⟩

theorem freezeAlong_of_isIn (hv : v.IsIn path) : h.freezeAlong path v = .object [] := by
  obtain ⟨o, ho, rfl⟩ := hv
  exact freezeAlong_object_of_mem ho

theorem freezeAlong_object_props (ho : o ∉ path) : h.freezeAlong path (.object o) =
    .object ((h.props o).map fun p => (p.1, h.freezeAlong (o :: path) p.2)) := by
  cases hr : h.record? o with
  | none => rw [freezeAlong_object_of_none ho hr, props, hr]; rfl
  | some r => rw [freezeAlong_object ho hr, props_of_record? hr]

theorem label_freezeAlong (hv : ¬ v.IsIn path) : (h.freezeAlong path v).label = h.label v := by
  cases v with
  | list vs => simp [freezeAlong_list, Frozen.label, label]
  | object o =>
    rw [freezeAlong_object_props fun ho => hv ⟨o, ho, rfl⟩, Frozen.label, label, List.map_map]
    rfl
  | _ => rw [freezeAlong]; rfl

theorem inside_freezeAlong (hv : ¬ v.IsIn path) :
    (h.freezeAlong path v).inside = (h.inside v).map (h.freezeAlong (v.enter path)) := by
  cases v with
  | list vs => rw [freezeAlong_list]; rfl
  | object o =>
    rw [freezeAlong_object_props fun ho => hv ⟨o, ho, rfl⟩, Frozen.inside, inside, List.map_map,
      List.map_map]
    rfl
  | _ => rw [freezeAlong]; rfl

/-- What a copy shows is the unfolding, cut where the way comes to an object again. -/
theorem shape_freezeAlong (h : Heap) (path : List ObjId) (v : Value) :
    (h.freezeAlong path v).shape = h.cutUnfolding path v := by
  funext place
  induction place generalizing path v with
  | nil =>
    rw [cutUnfolding, if_neg crosses_nil, reenters_nil]
    by_cases hv : v.IsIn path
    · rw [if_pos hv, freezeAlong_of_isIn hv]
      rfl
    · rw [if_neg hv]
      exact congrArg some (label_freezeAlong hv)
  | cons i place ih =>
    rw [Frozen.shape_cons, cutUnfolding, crosses_cons, reenters_cons, unfolding_cons]
    by_cases hv : v.IsIn path
    · rw [freezeAlong_of_isIn hv, if_pos (.inl hv)]
      rfl
    · rw [or_iff_right hv, inside_freezeAlong hv, List.getElem?_map]
      cases (h.inside v)[i]? with
      | none => rw [if_neg (by simp), if_neg (by simp)]; rfl
      | some w =>
        have hsome : ∀ P : Value → Prop, (∃ w', some w = some w' ∧ P w') ↔ P w := by simp
        rw [hsome, hsome]
        exact ih (v.enter path) w

theorem eq_freezeAlong_iff {f : Frozen} :
    f = h.freezeAlong path v ↔ f.shape = h.cutUnfolding path v := by
  rw [← shape_freezeAlong]
  exact ⟨fun hf => hf ▸ rfl, Frozen.eq_of_shape⟩

theorem freeze_eq_iff : h.freeze v = h.freeze w ↔ h.cutUnfolding [] v = h.cutUnfolding [] w := by
  rw [← h.shape_freezeAlong [] w]
  exact eq_comm.trans (eq_freezeAlong_iff.trans eq_comm)

mutual

/-- A run of the copying procedure: from a stack that lists the objects which the
run is inside of, a value is copied, and the stack is left as the run leaves it. -/
inductive CopiesTo (h : Heap) : List ObjId → Value → Frozen → List ObjId → Prop where
  | null {stack : List ObjId} : CopiesTo h stack .null .null stack
  | bool {stack : List ObjId} (b : Bool) : CopiesTo h stack (.bool b) (.bool b) stack
  | int {stack : List ObjId} (n : Int64) : CopiesTo h stack (.int n) (.int n) stack
  | float {stack : List ObjId} (bits : UInt64) : CopiesTo h stack (.float bits) (.float bits) stack
  | text {stack : List ObjId} (s : String) : CopiesTo h stack (.text s) (.text s) stack
  | bytes {stack : List ObjId} (bs : List UInt8) : CopiesTo h stack (.bytes bs) (.bytes bs) stack
  | list {stack stack' : List ObjId} {vs : List Value} {fs : List Frozen}
      (hvs : CopiesAllTo h stack vs fs stack') : CopiesTo h stack (.list vs) (.list fs) stack'
  | again {stack : List ObjId} {o : ObjId} (ho : o ∈ stack) :
      CopiesTo h stack (.object o) (.object []) stack
  | object {stack stack' : List ObjId} {o : ObjId} {fs : List Frozen} (ho : o ∉ stack)
      (hprops : CopiesAllTo h (o :: stack) ((h.props o).map (·.2)) fs stack') :
      CopiesTo h stack (.object o) (.object (((h.props o).map (·.1)).zip fs)) stack'.tail

/-- Values are copied one after the other, each from the stack that the one before it has left. -/
inductive CopiesAllTo (h : Heap) : List ObjId → List Value → List Frozen → List ObjId → Prop where
  | nil {stack : List ObjId} : CopiesAllTo h stack [] [] stack
  | cons {stack stack' stack'' : List ObjId} {v : Value} {vs : List Value} {f : Frozen}
      {fs : List Frozen} (hv : CopiesTo h stack v f stack')
      (hvs : CopiesAllTo h stack' vs fs stack'') : CopiesAllTo h stack (v :: vs) (f :: fs) stack''

end

mutual

theorem CopiesTo.eq {stack stack' : List ObjId} {v : Value} {f : Frozen} :
    h.CopiesTo stack v f stack' → f = h.freezeAlong stack v ∧ stack' = stack
  | .null => by rw [freezeAlong]; exact ⟨rfl, rfl⟩
  | .bool b => by rw [freezeAlong]; exact ⟨rfl, rfl⟩
  | .int n => by rw [freezeAlong]; exact ⟨rfl, rfl⟩
  | .float bits => by rw [freezeAlong]; exact ⟨rfl, rfl⟩
  | .text s => by rw [freezeAlong]; exact ⟨rfl, rfl⟩
  | .bytes bs => by rw [freezeAlong]; exact ⟨rfl, rfl⟩
  | .list hvs => by
    obtain ⟨hfs, hstack⟩ := hvs.eq
    rw [freezeAlong_list, hfs]
    exact ⟨rfl, hstack⟩
  | .again ho => ⟨(freezeAlong_object_of_mem ho).symm, rfl⟩
  | .object ho hprops => by
    obtain ⟨hfs, hstack⟩ := hprops.eq
    rw [freezeAlong_object_props ho, hfs, hstack, List.map_map, List.zip_map']
    exact ⟨rfl, rfl⟩

theorem CopiesAllTo.eq {stack stack' : List ObjId} {vs : List Value} {fs : List Frozen} :
    h.CopiesAllTo stack vs fs stack' → fs = vs.map (h.freezeAlong stack) ∧ stack' = stack
  | .nil => ⟨rfl, rfl⟩
  | .cons hv hvs => by
    obtain ⟨hf, hstack⟩ := hv.eq
    obtain ⟨hfs, hstack'⟩ := hvs.eq
    rw [hf, hfs, hstack', hstack]
    exact ⟨rfl, rfl⟩

end

theorem copiesAllTo_map {vs : List Value}
    (hvs : ∀ v ∈ vs, h.CopiesTo path v (h.freezeAlong path v) path) :
    h.CopiesAllTo path vs (vs.map (h.freezeAlong path)) path := by
  induction vs with
  | nil => exact .nil
  | cons v vs ih =>
    exact .cons (hvs v List.mem_cons_self) (ih fun w hw => hvs w (List.mem_cons_of_mem _ hw))

theorem copiesTo_object (ho : o ∉ path) (hprops : ∀ p ∈ h.props o,
    h.CopiesTo (o :: path) p.2 (h.freezeAlong (o :: path) p.2) (o :: path)) :
    h.CopiesTo path (.object o) (h.freezeAlong path (.object o)) path := by
  have hall := copiesAllTo_map (List.forall_mem_map.2 hprops)
  have hcopy := CopiesTo.object ho hall
  rw [List.map_map, List.zip_map'] at hcopy
  rw [freezeAlong_object_props ho]
  exact hcopy

theorem copiesTo_freezeAlong (h : Heap) (path : List ObjId) (v : Value) :
    h.CopiesTo path v (h.freezeAlong path v) path := by
  induction path, v using Heap.freezeAlong.induct h with
  | case1 => rw [freezeAlong]; exact .null
  | case2 => rw [freezeAlong]; exact .bool _
  | case3 => rw [freezeAlong]; exact .int _
  | case4 => rw [freezeAlong]; exact .float _
  | case5 => rw [freezeAlong]; exact .text _
  | case6 => rw [freezeAlong]; exact .bytes _
  | case7 path vs ih =>
    rw [freezeAlong_list]
    exact .list (copiesAllTo_map ih)
  | case8 path o ho => rw [freezeAlong_object_of_mem ho]; exact .again ho
  | case9 path o ho hr =>
    have hnone : h.props o = [] := by rw [props, hr]; rfl
    exact copiesTo_object ho (by simp [hnone])
  | case10 path o ho r hr ih => 
    refine copiesTo_object ho fun p hp => ?_
    rw [props_of_record? hr] at hp
    exact ih ⟨p, hp⟩

/-- The copying procedure ends for every value, with the copy and with the stack as it was. -/
theorem copiesTo_iff {path' : List ObjId} {f : Frozen} :
    h.CopiesTo path v f path' ↔ f = h.freezeAlong path v ∧ path' = path := by
  refine ⟨CopiesTo.eq, ?_⟩
  rintro ⟨rfl, rfl⟩
  exact h.copiesTo_freezeAlong path' v

end Heap
end ResultCache
