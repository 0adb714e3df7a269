import Mathlib.Data.List.Permutation
import ResultCache.Proofs.Key
import ResultCache.Proofs.Value.Loops

/-!
# Equality, hashes and keys

The words that a value feeds to a hash function are those of its frozen copy, cut where the copy is
cut (`Heap.hashWords_eq`), so values with the same key component hash alike.

On values without loops, whatever they share, the three ways to compare agree: they are equal
exactly if their copies are, exactly if they unfold into the same tree, and then they hash alike
(`loopless_values_agree`).

On values with loops equality is reflexive and symmetric, but it is not transitive and does not
agree with keys and hashes (`equality_breaks_on_loops`): an object that leads to itself, one that
leads to it and one that leads to another of the latter kind unfold into the same tree. What goes
wrong is said exactly by `equality_of_values`: two values that are equal to a third are equal unless
they clash, and equal values have the same key component unless they share a loop.
-/
namespace ResultCache

namespace Outline

mutual

/-- The words of an outline are those of the frozen value that it shows. -/
theorem hashWords_cut (l : Outline) : l.cut.outline.hashWords = l.hashWords := by
  cases l with
  | list ls =>
    rw [cut, Frozen.outline, hashWords, hashWords, hashWordsAll_cutAll ls,
      Frozen.outlineAll_eq_map, cutAll_eq_map, List.length_map, List.length_map]
  | object props => rw [cut, Frozen.outline, hashWords, hashWords, hashWordsProps_cutProps props]
  | ref o => rw [cut, Frozen.outline, Frozen.outlineProps, hashWords, hashWords, hashWordsProps]
  | _ => rfl

theorem hashWordsAll_cutAll (ls : List Outline) :
    hashWordsAll (Frozen.outlineAll (cutAll ls)) = hashWordsAll ls := by
  cases ls with
  | nil => rfl
  | cons l ls =>
    rw [cutAll, Frozen.outlineAll, hashWordsAll, hashWordsAll, hashWords_cut l,
      hashWordsAll_cutAll ls]

theorem hashWordsProps_cutProps (props : List (String × Outline)) :
    hashWordsProps (Frozen.outlineProps (cutProps props)) = hashWordsProps props := by
  match props with
  | [] => rfl
  | (name, l) :: props =>
    rw [cutProps, Frozen.outlineProps, hashWordsProps, hashWordsProps, hashWords_cut l,
      hashWordsProps_cutProps props]

end

end Outline

/-- If members are related exactly if they map to the same, lists are related member by member
exactly if they map to the same list. -/
theorem forall₂_iff_map_eq {α β : Type} {R : α → α → Prop} {f : α → β} {l l' : List α}
    (hR : ∀ a ∈ l, ∀ b ∈ l', R a b ↔ f a = f b) : List.Forall₂ R l l' ↔ l.map f = l'.map f := by
  induction l generalizing l' with
  | nil => cases l' <;> simp
  | cons a l ih =>
    cases l' with
    | nil => simp
    | cons b l' =>
      rw [List.forall₂_cons, List.map_cons, List.map_cons, List.cons.injEq,
        hR a List.mem_cons_self b List.mem_cons_self,
        ih fun c hc d hd => hR c (List.mem_cons_of_mem _ hc) d (List.mem_cons_of_mem _ hd)]

namespace Heap

variable {h : Heap} {u v w : Value} {vs ws : List Value}

/-- The words of a value are those of its frozen copy. -/
theorem hashWords_eq (h : Heap) (v : Value) :
    h.hashWords v = (h.freeze v).outline.hashWords := by
  have hcut : (h.outline v).cut = h.freeze v := h.cut_outlineHolding [] v
  rw [hashWords, ← Outline.hashWords_cut, hcut]

theorem hashWords_of_freeze (hvw : h.freeze v = h.freeze w) : h.hashWords v = h.hashWords w := by
  rw [hashWords_eq, hashWords_eq, hvw]

theorem frozenAll_map (h : Heap) (vs : List Value) :
    Key.Making.frozenAll (vs.map (h, ·)) = vs.map h.freeze := by
  rw [Key.Making.frozenAll, List.map_map]
  rfl

/-- Keys that go on from the same key are equal exactly if what was appended has the same copies. -/
theorem key_updateAll_iff (H : ComponentHash) (m : Key.Making) :
    (m.updateAll (vs.map (h, ·))).key H = (m.updateAll (ws.map (h, ·))).key H ↔
      vs.map h.freeze = ws.map h.freeze := by
  rw [Key.Making.key_inj, Key.Making.components, Key.Making.components, frozenAll_map,
    frozenAll_map, List.append_cancel_left_eq]

theorem key_update_iff (H : ComponentHash) (m : Key.Making) :
    (m.update h v).key H = (m.update h w).key H ↔ h.freeze v = h.freeze w := by
  rw [Key.Making.key_inj, Key.Making.components, Key.Making.components]
  simp

/-- Values that exist, and in reach of which no object leads back to itself. -/
structure Loopless (h : Heap) (vs : List Value) : Prop where
  known : ∀ v ∈ vs, v.Known h
  acyclic : h.Acyclic (named vs)

namespace Loopless

theorem reaches (hv : v ∈ vs) (o : ObjId) (ho : v.Refers o) : h.Reaches (named vs) o :=
  .root ⟨v, hv, ho⟩

theorem freeze_eq_iff (hvs : h.Loopless vs) (hv : v ∈ vs) (hw : w ∈ vs) :
    h.freeze v = h.freeze w ↔ h.unfolding v = h.unfolding w := by
  rw [← hvs.acyclic.shape_freeze (reaches hv), ← hvs.acyclic.shape_freeze (reaches hw)]
  exact ⟨congrArg Frozen.shape, Frozen.eq_of_shape⟩

theorem equal_iff_freeze (hvs : h.Loopless vs) (hh : h.Sound) (hv : v ∈ vs) (hw : w ∈ vs) :
    h.equal v w = true ↔ h.freeze v = h.freeze w := by
  rw [equal_iff_unfolding hh (hvs.known v hv) (hvs.known w hw), hvs.freeze_eq_iff hv hw]
  exact and_iff_left_of_imp (hvs.acyclic.not_clash (reaches hv) (reaches hw))

theorem forall₂_equal_iff (hvs : h.Loopless (vs ++ ws)) (hh : h.Sound) :
    List.Forall₂ (fun v w => h.equal v w = true) vs ws ↔ vs.map h.freeze = ws.map h.freeze :=
  forall₂_iff_map_eq fun _ hv _ hw =>
    hvs.equal_iff_freeze hh (List.mem_append_left ws hv) (List.mem_append_right vs hw)

end Loopless

/-- If properties name only objects made before, they name objects that exist, and no object leads
back to itself. -/
theorem sound_of_descends (hd : ∀ o r, h.record? o = some r → ∀ p ∈ r.entries, ∀ q, p.2.Refers q →
    q.index < o.index) : h.Sound ∧ ∀ roots, h.Acyclic roots := by
  have hstep : ∀ o q, h.LeadsTo o q → q.index < o.index := by
    rintro o q ⟨r, hr, p, hp, hq⟩
    exact hd o r hr p hp q hq
  refine ⟨fun o r hr p hp q hq => ?_, fun roots o _ hoo => ?_⟩
  · exact Nat.lt_trans (hd o r hr p hp q hq) (lt_size_of_record? hr)
  · have hlt : ∀ q, Relation.TransGen h.LeadsTo o q → q.index < o.index := fun q hq => by
      induction hq with
      | single hq => exact hstep _ _ hq
      | tail _ hq ih => exact Nat.lt_trans (hstep _ _ hq) ih
    exact Nat.lt_irrefl _ (hlt o hoo)

/-- An object with the same object under two names, and one with two objects that look like it. -/
def sharingHeap : Heap :=
  ⟨#[.ofList [("n", .int 1)], .ofList [("n", .int 1)],
    .ofList [("x", .object ⟨0⟩), ("y", .object ⟨0⟩)],
    .ofList [("x", .object ⟨0⟩), ("y", .object ⟨1⟩)]]⟩

theorem descends_sharingHeap (o : ObjId) (r : Record) (hr : sharingHeap.record? o = some r)
    (p : String × Value) (hp : p ∈ r.entries) (q : ObjId) (hq : p.2.Refers q) :
    q.index < o.index := by
  obtain ⟨i⟩ := o
  match i with
  | 0 | 1 =>
    cases hr
    rw [List.mem_singleton.1 hp] at hq
    cases hq
  | 2 | 3 =>
    cases hr
    rcases List.mem_pair.1 hp with rfl | rfl <;> cases hq <;> decide
  | i + 4 => cases hr

theorem loopless_sharingHeap : sharingHeap.Loopless [.object ⟨2⟩, .object ⟨3⟩] := by
  refine ⟨fun v hv o ho => ?_, (sound_of_descends descends_sharingHeap).2 _⟩
  rcases List.mem_pair.1 hv with rfl | rfl <;> cases ho <;> decide

/-- However much two values share, if no object in reach of them leads back to itself, they are
equal exactly if they have the same frozen copy, exactly if they unfold into the same tree, and
equal values feed the same words to a hash function. Two lists of values are equal member by member
exactly if they make the same keys. -/
theorem loopless_values_agree (hh : h.Sound) (hvs : h.Loopless (vs ++ ws)) :
    (∀ v ∈ vs ++ ws, ∀ w ∈ vs ++ ws,
      (h.equal v w = true ↔ h.freeze v = h.freeze w) ∧
      (h.freeze v = h.freeze w ↔ h.unfolding v = h.unfolding w) ∧
      (h.equal v w = true → h.hashWords v = h.hashWords w)) ∧
    ∀ (H : ComponentHash) (m : Key.Making),
      List.Forall₂ (fun v w => h.equal v w = true) vs ws ↔
        (m.updateAll (vs.map (h, ·))).key H = (m.updateAll (ws.map (h, ·))).key H := by
  refine ⟨fun v hv w hw => ⟨hvs.equal_iff_freeze hh hv hw, hvs.freeze_eq_iff hv hw, fun he => ?_⟩,
    fun H m => ?_⟩
  · exact hashWords_of_freeze ((hvs.equal_iff_freeze hh hv hw).1 he)
  · rw [key_updateAll_iff, hvs.forall₂_equal_iff hh]

/-- Two objects that share one of their parts, and one of which has it twice, are equal, have the
same copy, hash alike and make the same key. -/
theorem loopless_values_agree_sharingHeap :
    let v : Value := .object ⟨2⟩
    let w : Value := .object ⟨3⟩
    (sharingHeap.equal v w = true ∧ sharingHeap.freeze v = sharingHeap.freeze w ∧
      sharingHeap.unfolding v = sharingHeap.unfolding w ∧
      sharingHeap.hashWords v = sharingHeap.hashWords w) ∧
    ∀ (H : ComponentHash) (m : Key.Making),
      (m.updateAll [(sharingHeap, v)]).key H = (m.updateAll [(sharingHeap, w)]).key H := by
  intro v w
  obtain ⟨hpairs, hkeys⟩ := @loopless_values_agree sharingHeap [v] [w]
    (sound_of_descends descends_sharingHeap).1 loopless_sharingHeap
  obtain ⟨hfreeze, hunfold, hhash⟩ := hpairs v List.mem_cons_self w (by simp)
  have hequal : sharingHeap.equal v w = true := by cbv
  refine ⟨⟨hequal, hfreeze.1 hequal, hunfold.1 (hfreeze.1 hequal), hhash hequal⟩, fun H m => ?_⟩
  exact (hkeys H m).1 (.cons hequal .nil)

/-- On any values, with loops or without, equality is reflexive and symmetric. It compares the trees
that the values unfold into, except that it fails if the values clash, so two values that are equal
to a third are equal unless they clash. Equal values make the same key exactly if they share no
loop, and then they feed the same words to a hash function. -/
theorem equality_of_values (hh : h.Sound) (hu : u.Known h) (hv : v.Known h) (hw : w.Known h) :
    h.equal v v = true ∧ (h.equal v w = true ↔ h.equal w v = true) ∧
    (h.equal v w = true ↔ h.unfolding v = h.unfolding w ∧ ¬ h.Clash v w) ∧
    (h.equal u v = true → h.equal v w = true → (h.equal u w = true ↔ ¬ h.Clash u w)) ∧
    (h.equal v w = true →
      (∀ (H : ComponentHash) (m : Key.Making),
        (m.update h v).key H = (m.update h w).key H ↔ ¬ h.SharesLoop v w) ∧
      (¬ h.SharesLoop v w → h.hashWords v = h.hashWords w)) := by
  have huv' := equal_iff_unfolding hh hu hv
  have hvw' := equal_iff_unfolding hh hv hw
  refine ⟨?_, ?_, hvw', fun huv hvw => ?_, fun hvw => ?_⟩
  · exact (equal_iff_unfolding hh hv hv).2 ⟨rfl, h.not_clash_self v⟩
  · rw [hvw', equal_iff_unfolding hh hw hv, clash_comm]
    exact and_congr_left fun _ => eq_comm
  · have hunfold : h.unfolding u = h.unfolding w := (huv'.1 huv).1.trans (hvw'.1 hvw).1
    rw [equal_iff_unfolding hh hu hw]
    exact and_iff_right hunfold
  · obtain ⟨hunfold, hclash⟩ := hvw'.1 hvw
    have hfreeze := freeze_eq_iff_of_not_clash hunfold hclash
    refine ⟨fun H m => ?_, fun hloop => hashWords_of_freeze (hfreeze.2 hloop)⟩
    rw [key_update_iff, hfreeze]

/-- Four objects that all unfold into the same tree: one that leads to itself, two that lead to it
and one that leads to the second of these. -/
def knots : Heap :=
  ⟨#[.ofList [("x", .object ⟨0⟩)], .ofList [("x", .object ⟨0⟩)], .ofList [("x", .object ⟨0⟩)],
    .ofList [("x", .object ⟨2⟩)]]⟩

theorem sound_knots : knots.Sound := by
  intro o r hr p hp q hq
  obtain ⟨i⟩ := o
  match i with
  | 0 | 1 | 2 | 3 =>
    cases hr
    rw [List.mem_singleton.1 hp] at hq
    cases hq
    decide
  | i + 4 => cases hr

theorem known_knots {o : ObjId} (ho : o.index < 4) : (Value.object o).Known knots := by
  intro q hq
  cases hq
  exact ho

theorem equal_knots : knots.equal (.object ⟨3⟩) (.object ⟨1⟩) = true ∧
    knots.equal (.object ⟨1⟩) (.object ⟨0⟩) = true ∧
    knots.equal (.object ⟨3⟩) (.object ⟨0⟩) = false := by
  refine ⟨by cbv, by cbv, by cbv⟩

theorem freeze_knots_ne : knots.freeze (.object ⟨1⟩) ≠ knots.freeze (.object ⟨0⟩) := by
  have hone : knots.freeze (.object ⟨1⟩) = .object [("x", .object [("x", .object [])])] := by cbv
  have hzero : knots.freeze (.object ⟨0⟩) = .object [("x", .object [])] := by cbv
  rw [hone, hzero]
  decide

/-- The two objects that are equal to a third and not to each other clash, and two that are equal
and make different keys share a loop. -/
theorem equality_of_values_knots :
    knots.Clash (.object ⟨3⟩) (.object ⟨0⟩) ∧ knots.SharesLoop (.object ⟨1⟩) (.object ⟨0⟩) := by
  obtain ⟨huv, hvw, huw⟩ := equal_knots
  obtain ⟨-, -, -, htrans, hkeys⟩ := equality_of_values sound_knots
    (known_knots (o := ⟨3⟩) (by decide)) (known_knots (o := ⟨1⟩) (by decide))
    (known_knots (o := ⟨0⟩) (by decide))
  constructor
  · by_contra hclash
    rw [(htrans huv hvw).2 hclash] at huw
    cases huw
  · by_contra hloop
    have hkey := ((hkeys hvw).1 ⟨fun _ => 1, rfl⟩ .new).2 hloop
    rw [key_update_iff] at hkey
    exact freeze_knots_ne hkey

/-- Equality is not transitive, and equal values feed different words to a hash function and make
different keys, whatever the keys go on from. -/
theorem equality_breaks_on_loops :
    (knots.equal (.object ⟨3⟩) (.object ⟨1⟩) = true ∧
      knots.equal (.object ⟨1⟩) (.object ⟨0⟩) = true ∧
      knots.equal (.object ⟨3⟩) (.object ⟨0⟩) = false) ∧
    knots.hashWords (.object ⟨1⟩) = [.kind 7, .text "x", .kind 7, .text "x", .kind 7] ∧
    knots.hashWords (.object ⟨0⟩) = [.kind 7, .text "x", .kind 7] ∧
    ∀ (H : ComponentHash) (m : Key.Making),
      (m.update knots (.object ⟨1⟩)).key H ≠ (m.update knots (.object ⟨0⟩)).key H := by
  refine ⟨equal_knots, by cbv, by cbv, fun H m => ?_⟩
  rw [ne_eq, key_update_iff]
  exact freeze_knots_ne

end Heap
end ResultCache
