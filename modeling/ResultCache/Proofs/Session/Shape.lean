import ResultCache.Proofs.Session.Constant
import ResultCache.Proofs.Value.Agreement

/-!
# Keys show shape alone

Which objects a value names makes no difference to a key. If the objects of two heaps are paired one
to one so that paired objects have alike properties, alike values have one copy, alike lists of
values make one key, and so do queries with alike parameters, whatever object the caller's
parameters were put in (`freezing_shows_shape`). And a copy is told by the unfolding of its value,
cut at exactly those places where the way comes to an object again; the stack of the copying
procedure carries nothing from one member or property to the next.
-/
namespace ResultCache

theorem Record.alike_single {ρ : ObjId → ObjId → Prop} (name : String) {v w : Value}
    (hvw : v.Alike ρ w) : Record.Alike ρ (.ofList [(name, v)]) (.ofList [(name, w)]) := by
  intro other
  change Option.Rel _ (NameMap.find other [(name, v)]) (NameMap.find other [(name, w)])
  by_cases hname : name = other
  · simpa only [NameMap.find, if_pos hname] using .some hvw
  · simpa only [NameMap.find, if_neg hname] using .none

theorem Query.Alike.keyOf_eq {ρ : ObjId → ObjId → Prop} {h h' : Heap}
    (hρ : Heap.Renaming ρ h h') {q q' : Query} (hq : q.Alike ρ q') (H : ComponentHash)
    (c : Session.Config) : Session.keyOf H h' c q' = Session.keyOf H h c q :=
  Query.keyOf_eq_iff.2 (hρ.asked_eq_of_alike hq)

namespace Heap

/-- Keys that are made of alike values, each frozen in its own heap, are equal. -/
theorem Renaming.updateAll_eq {ρ : ObjId → ObjId → Prop} {h h' : Heap} (hρ : Renaming ρ h h')
    {vs ws : List Value} (hvw : List.Forall₂ (Value.Alike ρ) vs ws) (H : ComponentHash)
    (m : Key.Making) :
    (m.updateAll (ws.map (h', ·))).key H = (m.updateAll (vs.map (h, ·))).key H := by
  rw [Key.Making.key_inj, Key.Making.components, Key.Making.components, frozenAll_map,
    frozenAll_map, map_eq_of_forall₂ hvw fun v _ w hvw => hρ.freeze_eq hvw]

/-- The copy of a value depends on what the value looks like, and on nothing else. Alike values in
renamed heaps have the same copy, make the same keys, and queries that differ in the identities of
the objects in their parameters have the same key. The copy is the one frozen value that shows the
unfolding, with an object without properties at exactly those places where the way from the root
comes to an object again, and every run of the copying procedure, from whatever stack it starts and
whatever it copied before, arrives at it and leaves the stack as it was. -/
theorem freezing_shows_shape (h : Heap) :
    (∀ (ρ : ObjId → ObjId → Prop) (h' : Heap), Renaming ρ h h' →
      (∀ v w, v.Alike ρ w → h'.freeze w = h.freeze v) ∧
      (∀ vs ws, List.Forall₂ (Value.Alike ρ) vs ws → ∀ (H : ComponentHash) (m : Key.Making),
        (m.updateAll (ws.map (h', ·))).key H = (m.updateAll (vs.map (h, ·))).key H) ∧
      ∀ q q', Query.Alike ρ q q' → ∀ (H : ComponentHash) (c : Session.Config),
        Session.keyOf H h' c q' = Session.keyOf H h c q) ∧
    (∀ v f, f = h.freeze v ↔ f.shape = h.cutUnfolding [] v) ∧
    ∀ path v f path', h.CopiesTo path v f path' ↔
      f.shape = h.cutUnfolding path v ∧ path' = path := by
  refine ⟨fun ρ h' hρ => ⟨fun v w hvw => hρ.freeze_eq hvw, fun vs ws hvw => hρ.updateAll_eq hvw,
    fun q q' hq => hq.keyOf_eq hρ⟩, fun v f => eq_freezeAlong_iff, fun path v f path' => ?_⟩
  rw [copiesTo_iff, eq_freezeAlong_iff]

/-- Two objects that lead to each other. -/
def ring : Heap := ⟨#[.ofList [("next", .object ⟨1⟩)], .ofList [("next", .object ⟨0⟩)]]⟩

/-- Two objects that lead to each other and were made after another object. -/
def laterRing : Heap :=
  ⟨#[.empty, .ofList [("next", .object ⟨2⟩)], .ofList [("next", .object ⟨1⟩)]]⟩

/-- Objects of the first ring are paired with those made one later in the second. -/
def nextTo (o p : ObjId) : Prop := o.index < 2 ∧ p.index = o.index + 1

theorem renaming_ring : Renaming nextTo ring laterRing where
  left := by
    rintro o ⟨p⟩ ⟨p'⟩ ⟨-, hp⟩ ⟨-, hp'⟩
    exact congrArg ObjId.mk (hp.trans hp'.symm)
  right := by
    rintro ⟨o⟩ ⟨o'⟩ p ⟨-, hp⟩ ⟨-, hp'⟩
    exact congrArg ObjId.mk (Nat.succ.inj (hp.symm.trans hp'))
  records := by
    rintro ⟨o⟩ ⟨p⟩ ⟨ho, hp⟩
    cases hp
    match o, ho with
    | 0, _ => exact ⟨_, _, rfl, rfl, Record.alike_single "next" (.object ⟨by decide, rfl⟩)⟩
    | 1, _ => exact ⟨_, _, rfl, rfl, Record.alike_single "next" (.object ⟨by decide, rfl⟩)⟩

/-- A statement with one parameter. -/
def askNext : Statement :=
  { Statement.make .select "next" "SELECT next" with parameters := [⟨"next", .input⟩] }

/-- Two rings made of different objects have one copy, and a query whose parameters are the
properties of an object on one of them has the key it has with the other. -/
theorem freezing_shows_shape_ring :
    let v : Value := .object ⟨0⟩
    let w : Value := .object ⟨1⟩
    ring.freeze v = .object [("next", .object [("next", .object [])])] ∧
    laterRing.freeze w = ring.freeze v ∧
    (∀ (H : ComponentHash) (c : Session.Config),
      Session.keyOf H laterRing c (.ofStatement askNext w .unbounded) =
        Session.keyOf H ring c (.ofStatement askNext v .unbounded)) ∧
    (ring.freeze v).shape = ring.cutUnfolding [] v ∧
    ring.CopiesTo [] v (ring.freeze v) [] := by
  intro v w
  obtain ⟨halike, hcut, hruns⟩ := freezing_shows_shape ring
  obtain ⟨hfreeze, -, hkeys⟩ := halike nextTo laterRing renaming_ring
  have hvw : v.Alike nextTo w := .object ⟨by decide, rfl⟩
  have hshape := (hcut v (ring.freeze v)).1 rfl
  refine ⟨by cbv, hfreeze v w hvw, ?_, hshape, (hruns [] v (ring.freeze v) []).2 ⟨hshape, rfl⟩⟩
  exact hkeys _ _ (Query.alike_ofStatement askNext hvw .unbounded)

end Heap
end ResultCache
