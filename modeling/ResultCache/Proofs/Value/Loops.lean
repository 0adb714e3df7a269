import Mathlib.Logic.Relation
import ResultCache.Proofs.Value.Comparing
import ResultCache.Proofs.Value.Copies

/-!
# Where equality and copies cut

Copies and comparisons are cut where the way into a value comes to an object again, so they agree on
values in which no object leads back to itself. Such a value is copied whole
(`Acyclic.shape_freeze`), and two of them that unfold into the same tree do not clash
(`Acyclic.not_clash`), because no object looks like a part of itself.

With loops they differ. A copy is cut by the objects on the way into one value. A comparison stops
where the two values meet, and the loops beyond that place may lead back to an object on the way
into just one of them (`SharesLoop`). Equal values have the same copy exactly if this does not
happen (`freeze_eq_iff_of_not_clash`).
-/
namespace ResultCache

/-- A place on the way to a place inside a part lies on the way to the part or inside the part. -/
theorem onWay_append_iff {place outer inner : Place} :
    (place <+: outer ++ inner ∧ place ≠ outer ++ inner) ↔
      (place <+: outer ∧ place ≠ outer) ∨
        ∃ rest, place = outer ++ rest ∧ rest <+: inner ∧ rest ≠ inner := by
  constructor
  · rintro ⟨hle, hne⟩
    have hle' : outer <+: outer ++ inner := List.prefix_append outer inner
    rcases List.prefix_or_prefix_of_prefix hle hle' with hp | ⟨rest, rfl⟩
    · by_cases he : place = outer
      · subst he
        exact .inr ⟨[], by simp, List.nil_prefix, fun hn => hne (by simp [← hn])⟩
      · exact .inl ⟨hp, he⟩
    · exact .inr ⟨rest, rfl, (List.prefix_append_right_inj outer).1 hle, fun he => hne (he ▸ rfl)⟩
  · rintro (⟨hle, hne⟩ | ⟨rest, rfl, hle, hne⟩)
    · refine ⟨hle.trans (List.prefix_append outer inner), fun he => hne ?_⟩
      have hlen := hle.length_le
      rw [he, List.length_append] at hlen
      have hnil : inner = [] := List.length_eq_zero_iff.1 (by omega)
      rw [he, hnil, List.append_nil]
    · exact ⟨(List.prefix_append_right_inj outer).2 hle, fun he => hne (List.append_cancel_left he)⟩

namespace Frozen

theorem sizeOf_lt_of_mem_inside {f g : Frozen} (hg : g ∈ f.inside) : sizeOf g < sizeOf f := by
  cases f with
  | list fs =>
    have hlt : sizeOf g < sizeOf fs := List.sizeOf_lt_of_mem hg
    simp only [list.sizeOf_spec]
    omega
  | object ps =>
    obtain ⟨p, hp, rfl⟩ := List.mem_map.1 hg
    have hlt := List.sizeOf_lt_of_mem hp
    have hsnd : sizeOf p.2 < sizeOf p := by
      cases p
      simp only [Prod.mk.sizeOf_spec]
      omega
    simp only [object.sizeOf_spec]
    omega
  | _ => cases hg

theorem sizeOf_add_length_le {f g : Frozen} {place : Place} (hg : partAt inside f place = some g) :
    sizeOf g + place.length ≤ sizeOf f := by
  induction place generalizing f with
  | nil => cases hg; exact Nat.le_refl _
  | cons i place ih =>
    obtain ⟨f', hf', hg⟩ := Option.bind_eq_some_iff.1 hg
    have hlt := sizeOf_lt_of_mem_inside (List.mem_of_getElem? hf')
    have hle := ih hg
    rw [List.length_cons]
    omega

/-- A frozen value does not look like one of its parts. -/
theorem eq_nil_of_shape {f : Frozen} {place : Place}
    (h : ∀ inner, f.shape (place ++ inner) = f.shape inner) : place = [] := by
  have hroot := h []
  rw [List.append_nil, shape_nil, shape, Option.map_eq_some_iff] at hroot
  obtain ⟨g, hg, -⟩ := hroot
  have hfg : g = f := by
    refine eq_of_shape (funext fun inner => ?_)
    rw [← h inner, shape, shape, partAt_append, hg]
    rfl
  have hle := sizeOf_add_length_le hg
  rw [hfg] at hle
  exact List.length_eq_zero_iff.1 (by omega)

end Frozen

namespace Heap

open Relation

variable {h : Heap} {roots : ObjId → Prop} {v w a : Value} {o p q : ObjId}
  {place outer inner : Place}

theorem at?_append (ha : h.at? v outer = some a) (inner : Place) :
    h.at? v (outer ++ inner) = h.at? a inner := by
  rw [at?, partAt_append]
  exact congrArg (Option.bind · _) ha

theorem unfolding_append (ha : h.at? v outer = some a) (inner : Place) :
    h.unfolding v (outer ++ inner) = h.unfolding a inner := by
  rw [unfolding, at?_append ha, unfolding]

theorem around_append (ha : h.at? v outer = some a) :
    h.Around v (outer ++ inner) o ↔ h.Around v outer o ∨ h.Around a inner o := by
  constructor
  · rintro ⟨place, hle, hne, ho⟩
    rcases onWay_append_iff.1 ⟨hle, hne⟩ with ⟨hle, hne⟩ | ⟨rest, rfl, hle, hne⟩
    · exact .inl ⟨place, hle, hne, ho⟩
    · exact .inr ⟨rest, hle, hne, (at?_append ha rest).symm.trans ho⟩
  · rintro (⟨place, hle, hne, ho⟩ | ⟨rest, hle, hne, ho⟩)
    · have hon : place <+: outer ++ inner ∧ place ≠ outer ++ inner :=
        onWay_append_iff.2 (.inl ⟨hle, hne⟩)
      exact ⟨place, hon.1, hon.2, ho⟩
    · have hon : outer ++ rest <+: outer ++ inner ∧ outer ++ rest ≠ outer ++ inner :=
        onWay_append_iff.2 (.inr ⟨rest, rfl, hle, hne⟩)
      exact ⟨outer ++ rest, hon.1, hon.2, (at?_append ha rest).trans ho⟩

/-- Properties name what is inside an object. -/
theorem leadsTo_iff : h.LeadsTo o q ↔ ∃ a ∈ h.inside (.object o), a.Refers q := by
  constructor
  · rintro ⟨r, hr, p, hp, hq⟩
    refine ⟨p.2, ?_, hq⟩
    rw [inside, props_of_record? hr]
    exact List.mem_map_of_mem hp
  · rintro ⟨a, ha, hq⟩
    obtain ⟨p, hp, rfl⟩ := List.mem_map.1 ha
    cases hr : h.record? o with
    | none =>
      rw [props, hr] at hp
      cases hp
    | some r =>
      rw [props_of_record? hr] at hp
      exact ⟨r, hr, p, hp, hq⟩

theorem exists_at?_of_refers (hv : v.Refers o) : ∃ place, h.at? v place = some (.object o) := by
  induction hv with
  | object => exact ⟨[], rfl⟩
  | list hm _ ih =>
    obtain ⟨i, hi⟩ := List.getElem?_of_mem hm
    obtain ⟨place, hplace⟩ := ih
    refine ⟨i :: place, ?_⟩
    rw [at?_cons, inside, hi]
    exact hplace

/-- Whatever is met from an object on lies somewhere inside it. -/
theorem exists_at?_of_leadsTo (hoq : ReflTransGen h.LeadsTo o q) :
    ∃ place, h.at? (.object o) place = some (.object q) := by
  induction hoq with
  | refl => exact ⟨[], rfl⟩
  | tail _ hstep ih =>
    obtain ⟨place, hplace⟩ := ih
    obtain ⟨a, ha, hq⟩ := leadsTo_iff.1 hstep
    obtain ⟨i, hi⟩ := List.getElem?_of_mem ha
    obtain ⟨inner, hinner⟩ := exists_at?_of_refers (h := h) hq
    refine ⟨place ++ i :: inner, ?_⟩
    rw [at?_append hplace, at?_cons, hi]
    exact hinner

theorem exists_refers_of_at? (hq : h.at? v place = some (.object q)) :
    ∃ p, v.Refers p ∧ ReflTransGen h.LeadsTo p q := by
  induction place generalizing v with
  | nil =>
    cases hq
    exact ⟨q, .object, .refl⟩
  | cons i place ih =>
    obtain ⟨w, hw, hq⟩ := Option.bind_eq_some_iff.1 hq
    obtain ⟨p, hp, hpq⟩ := ih hq
    have hm := List.mem_of_getElem? hw
    cases v with
    | list vs => exact ⟨p, .list hm hp, hpq⟩
    | object o => exact ⟨o, .object, .head (leadsTo_iff.2 ⟨w, hm, hp⟩) hpq⟩
    | _ => cases hm

/-- What lies inside an object is met from it on. -/
theorem leadsTo_of_at? (hplace : place ≠ []) (hq : h.at? (.object o) place = some (.object q)) :
    TransGen h.LeadsTo o q := by
  cases place with
  | nil => exact (hplace rfl).elim
  | cons i place =>
    obtain ⟨w, hw, hq⟩ := Option.bind_eq_some_iff.1 hq
    obtain ⟨p, hp, hpq⟩ := exists_refers_of_at? hq
    exact .head' (leadsTo_iff.2 ⟨w, List.mem_of_getElem? hw, hp⟩) hpq

theorem leadsTo_or_eq_of_at? (hq : h.at? (.object o) place = some (.object q)) :
    ReflTransGen h.LeadsTo o q := by
  obtain ⟨p, hp, hpq⟩ := exists_refers_of_at? hq
  cases hp
  exact hpq

theorem Reaches.trans (ho : h.Reaches roots o) (hoq : ReflTransGen h.LeadsTo o q) :
    h.Reaches roots q := by
  induction hoq with
  | refl => exact ho
  | tail _ hstep ih => exact ih.step hstep

namespace Acyclic

/-- What is named by a value whose objects are in reach of the roots, or by a part of it, is in
reach of the roots. -/
theorem reaches_of_at? (hv : ∀ o, v.Refers o → h.Reaches roots o)
    (ho : h.at? v place = some (.object o)) : h.Reaches roots o := by
  obtain ⟨p, hp, hpo⟩ := exists_refers_of_at? ho
  exact (hv p hp).trans hpo

variable (hroots : h.Acyclic roots)
include hroots

/-- An object does not lie inside itself. -/
theorem not_reenters (hv : ∀ o, v.Refers o → h.Reaches roots o) (place : Place) :
    ¬ h.Reenters [] v place := by
  rintro ⟨o, ho, haround⟩
  obtain ⟨outer, ⟨inner, rfl⟩, hne, houter⟩ := haround.resolve_left List.not_mem_nil
  have hinner : inner ≠ [] := fun he => hne (by rw [he, List.append_nil])
  rw [at?_append houter] at ho
  exact hroots o (reaches_of_at? hv houter) (leadsTo_of_at? hinner ho)

/-- A value without loops is copied whole. -/
theorem shape_freeze (hv : ∀ o, v.Refers o → h.Reaches roots o) :
    (h.freeze v).shape = h.unfolding v := by
  rw [freeze, shape_freezeAlong]
  funext place
  rw [cutUnfolding, if_neg, if_neg (not_reenters hroots hv place)]
  rintro ⟨outer, -, -, hre⟩
  exact not_reenters hroots hv outer hre

/-- If `w` leads through an object that `v` has further inside, then the object looks like a part of
itself, as `v` and `w` unfold alike. -/
theorem not_around (hv : ∀ o, v.Refers o → h.Reaches roots o)
    (hunfold : h.unfolding v = h.unfolding w) (ho : h.at? v place = some (.object o)) :
    ¬ h.Around w place o := by
  rintro ⟨outer, ⟨inner, rfl⟩, hne, houter⟩
  have hself : ∀ rest, h.unfolding (.object o) (inner ++ rest) = h.unfolding (.object o) rest := by
    intro rest
    rw [← unfolding_append houter, ← List.append_assoc, ← hunfold, unfolding_append ho]
  have hshape : (h.freeze (.object o)).shape = h.unfolding (.object o) :=
    shape_freeze hroots fun q hq => by
      cases hq
      exact reaches_of_at? hv ho
  rw [← hshape] at hself
  exact hne (by rw [Frozen.eq_nil_of_shape hself, List.append_nil])

/-- Values without loops that unfold into the same tree do not clash. -/
theorem not_clash (hv : ∀ o, v.Refers o → h.Reaches roots o)
    (hw : ∀ o, w.Refers o → h.Reaches roots o) (hunfold : h.unfolding v = h.unfolding w) :
    ¬ h.Clash v w := by
  rintro ⟨place, -, o, ho, haround⟩
  rcases ho with ho | ho <;> rcases haround.resolve_left List.not_mem_nil with hin | hin
  · exact not_reenters hroots hv place ⟨o, ho, .inr hin⟩
  · exact not_around hroots hv hunfold ho hin
  · exact not_around hroots hw hunfold.symm ho hin
  · exact not_reenters hroots hw place ⟨o, ho, .inr hin⟩

end Acyclic

/-- Whether two values come to one and the same object at a place and did not meet before. -/
structure MeetFirst (h : Heap) (v w : Value) (place : Place) (o : ObjId) : Prop where
  left : h.at? v place = some (.object o)
  right : h.at? w place = some (.object o)
  before : ∀ outer, outer <+: place → outer ≠ place → ¬ h.Meet v w outer

/-- Whether the object at which two values meet leads back to an object on the way into one of
them. -/
def SharesLoop (h : Heap) (v w : Value) : Prop :=
  ∃ place o q, h.MeetFirst v w place o ∧ ReflTransGen h.LeadsTo o q ∧
    (h.Around v place q ∨ h.Around w place q)

theorem meet_comm : h.Meet v w place ↔ h.Meet w v place := exists_congr fun _ => and_comm

theorem MeetFirst.symm (hm : h.MeetFirst v w place o) : h.MeetFirst w v place o :=
  ⟨hm.right, hm.left, fun outer hle hne hw => hm.before outer hle hne (meet_comm.1 hw)⟩

theorem SharesLoop.symm (hvw : h.SharesLoop v w) : h.SharesLoop w v := by
  obtain ⟨place, o, q, hm, hoq, hin⟩ := hvw
  exact ⟨place, o, q, hm.symm, hoq, hin.symm⟩

theorem Meet.exists_first (hm : h.Meet v w place) :
    ∃ first o, first <+: place ∧ h.MeetFirst v w first o := by
  induction hn : place.length using Nat.strong_induction_on generalizing place with
  | _ n ih =>
    by_cases hearlier : ∃ outer, outer <+: place ∧ outer ≠ place ∧ h.Meet v w outer
    · obtain ⟨outer, hle, hne, hmeet⟩ := hearlier
      have hlt : outer.length < n := by
        refine hn ▸ Nat.lt_of_le_of_ne hle.length_le fun he => hne (hle.eq_of_length he)
      obtain ⟨first, o, hfirst, hmf⟩ := ih _ hlt hmeet rfl
      exact ⟨first, o, hfirst.trans hle, hmf⟩
    · obtain ⟨o, hv, hw⟩ := hm
      exact ⟨place, o, List.prefix_refl _, hv, hw, fun outer hle hne hmeet =>
        hearlier ⟨outer, hle, hne, hmeet⟩⟩

/-- There is no clash on the way to the first meeting. -/
theorem MeetFirst.not_clash_before (hm : h.MeetFirst v w place o) (hclash : ¬ h.Clash v w)
    (hle : outer <+: place) (hne : outer ≠ place) (hq : h.at? v outer = some (.object q)) :
    ¬ h.Around v outer q ∧ ¬ h.Around w outer q := by
  have hbefore : ∀ earlier, earlier <+: outer → ¬ h.Meet v w earlier := by
    intro earlier hearlier
    refine hm.before earlier (hearlier.trans hle) fun he => hne ?_
    exact hle.eq_of_length_le (he ▸ hearlier.length_le)
  refine not_or.1 fun hin => hclash ⟨outer, hbefore, q, .inl hq, .inr hin⟩

/-- Before they meet, the values lead through different objects. -/
theorem MeetFirst.not_around (hm : h.MeetFirst v w place o) (hclash : ¬ h.Clash v w)
    (hv : h.Around v place q) : ¬ h.Around w place q := by
  rintro ⟨outer', hle', hne', hq'⟩
  obtain ⟨outer, hle, hne, hq⟩ := hv
  by_cases he : outer = outer'
  · exact hm.before outer hle hne ⟨q, hq, he ▸ hq'⟩
  · rcases List.prefix_or_prefix_of_prefix hle hle' with hlt | hlt
    · have hclash' : ¬ h.Clash w v := fun hc => hclash (clash_comm.1 hc)
      exact (hm.symm.not_clash_before hclash' hle' hne' hq').2 ⟨outer, hlt, he, hq⟩
    · exact (hm.not_clash_before hclash hle hne hq).2 ⟨outer', hlt, Ne.symm he, hq'⟩

theorem inside_ne_nil_of_around (ha : h.at? v place = some a) (hq : h.Around v place q) :
    h.inside (.object q) ≠ [] := by
  obtain ⟨outer, ⟨inner, rfl⟩, hne, houter⟩ := hq
  rw [at?_append houter] at ha
  cases inner with
  | nil => exact (hne (List.append_nil outer).symm).elim
  | cons i inner =>
    obtain ⟨b, hb, -⟩ := Option.bind_eq_some_iff.1 ha
    exact List.ne_nil_of_mem (List.mem_of_getElem? hb)

/-- If no loop is shared, both values come to objects again at the same places. -/
theorem Reenters.of_not_sharesLoop (hclash : ¬ h.Clash v w) (hloop : ¬ h.SharesLoop v w)
    (hv : h.Reenters [] v place) : h.Reenters [] w place := by
  obtain ⟨o, ho, haround⟩ := hv
  replace haround := haround.resolve_left List.not_mem_nil
  have hmeet : ∃ outer, outer <+: place ∧ h.Meet v w outer := by
    by_contra hno
    exact hclash ⟨place, fun outer hle hm => hno ⟨outer, hle, hm⟩, o, .inl ho, .inr (.inl haround)⟩
  obtain ⟨outer, hle, hmeet⟩ := hmeet
  obtain ⟨first, p, hfirst, hm⟩ := hmeet.exists_first
  obtain ⟨rest, rfl⟩ := hfirst.trans hle
  rw [at?_append hm.left] at ho
  rw [around_append hm.left] at haround
  refine ⟨o, (at?_append hm.right rest).trans ho, .inr ((around_append hm.right).2 (.inr ?_))⟩
  refine haround.resolve_left fun hin => hloop ⟨first, p, o, hm, ?_, .inl hin⟩
  exact leadsTo_or_eq_of_at? ho

/-- A way on from where two values meet that comes to no object again before it ends: neither to one
on the way into either value nor to one that it has led through itself. -/
def OpenWay (h : Heap) (v w : Value) (place : Place) (o : ObjId) (inner : Place) : Prop :=
  ∀ rest p, rest <+: inner → rest ≠ inner → h.at? (.object o) rest = some (.object p) →
    ¬ (h.Around v place p ∨ h.Around w place p) ∧ ¬ h.Around (.object o) rest p

theorem OpenWay.symm (hway : h.OpenWay v w place o inner) : h.OpenWay w v place o inner :=
  fun rest p hle hne hp => (hway rest p hle hne hp).imp (fun hin hor => hin hor.symm) id

theorem OpenWay.not_crosses (hm : h.MeetFirst v w place o) (hclash : ¬ h.Clash v w)
    (hway : h.OpenWay v w place o inner) : ¬ h.Crosses [] v (place ++ inner) := by
  rintro ⟨outer, hle, hne, p, hp, haround⟩
  replace haround := haround.resolve_left List.not_mem_nil
  rcases onWay_append_iff.1 ⟨hle, hne⟩ with ⟨hle, hne⟩ | ⟨rest, rfl, hle, hne⟩
  · exact (hm.not_clash_before hclash hle hne hp).1 haround
  · rw [at?_append hm.left] at hp
    obtain ⟨hin, hself⟩ := hway rest p hle hne hp
    exact ((around_append hm.left).1 haround).elim (fun hv => hin (.inl hv)) hself

/-- A shortest way back is open: a loop on it could be left out. -/
theorem exists_openWay (hq : h.at? (.object o) inner = some (.object q))
    (hback : h.Around v place q ∨ h.Around w place q) :
    ∃ inner q, h.OpenWay v w place o inner ∧ h.at? (.object o) inner = some (.object q) ∧
      (h.Around v place q ∨ h.Around w place q) := by
  induction hn : inner.length using Nat.strong_induction_on generalizing inner q with
  | _ n ih =>
    by_cases hway : h.OpenWay v w place o inner
    · exact ⟨inner, q, hway, hq, hback⟩
    · simp only [OpenWay, not_forall, not_and_or, not_not] at hway
      obtain ⟨rest, p, ⟨tail, rfl⟩, hne, hp, hagain⟩ := hway
      have htail : tail ≠ [] := fun he => hne (by rw [he, List.append_nil])
      have hpos : 0 < tail.length := List.length_pos_iff.2 htail
      rw [List.length_append] at hn
      rcases hagain with hin | ⟨earlier, hle, hne', hp'⟩
      · exact ih rest.length (by omega) hp hin rfl
      · -- the way is in the same place twice, so it goes on from the first time as from the second
        have hlt := Nat.lt_of_le_of_ne hle.length_le fun he => hne' (hle.eq_of_length he)
        have hshort : h.at? (.object o) (earlier ++ tail) = some (.object q) := by
          rw [at?_append hp', ← at?_append hp, hq]
        exact ih (earlier ++ tail).length (by rw [List.length_append]; omega) hshort hback rfl

/-- One value comes to an object again where the other still shows its properties. -/
theorem OpenWay.freeze_ne (hm : h.MeetFirst v w place o) (hclash : ¬ h.Clash v w)
    (hway : h.OpenWay v w place o inner) (hq : h.at? (.object o) inner = some (.object q))
    (hback : h.Around v place q) : h.freeze v ≠ h.freeze w := by
  have hclash' : ¬ h.Clash w v := fun hc => hclash (clash_comm.1 hc)
  have hv : h.at? v (place ++ inner) = some (.object q) := (at?_append hm.left inner).trans hq
  have hw : h.at? w (place ++ inner) = some (.object q) := (at?_append hm.right inner).trans hq
  have hcut : h.cutUnfolding [] v (place ++ inner) = some (.object []) := by
    rw [cutUnfolding, if_neg (hway.not_crosses hm hclash), if_pos]
    exact ⟨q, hv, .inr ((around_append hm.left).2 (.inl hback))⟩
  have hfirst : ¬ h.Reenters [] w (place ++ inner) := by
    rintro ⟨q', hq', haround⟩
    rw [hw] at hq'
    cases hq'
    rcases (around_append hm.right).1 (haround.resolve_left List.not_mem_nil) with hin | hin
    · exact hm.not_around hclash hback hin
    · obtain ⟨rest, hle, hne, hrest⟩ := hin
      exact (hway rest q hle hne hrest).1 (.inl hback)
  have hwhole : h.cutUnfolding [] w (place ++ inner) = some (h.label (.object q)) := by
    rw [cutUnfolding, if_neg (hway.symm.not_crosses hm.symm hclash'), if_neg hfirst, unfolding, hw]
    rfl
  intro hfreeze
  rw [freeze_eq_iff] at hfreeze
  rw [hfreeze, hwhole] at hcut
  have hlength : (h.inside (.object q)).length = 0 := by
    rw [length_inside, Option.some.inj hcut]
    rfl
  exact inside_ne_nil_of_around hm.left hback (List.length_eq_zero_iff.1 hlength)

/-- Values that unfold into the same tree and do not clash have the same copy exactly if they share
no loop. -/
theorem freeze_eq_iff_of_not_clash (hunfold : h.unfolding v = h.unfolding w)
    (hclash : ¬ h.Clash v w) : h.freeze v = h.freeze w ↔ ¬ h.SharesLoop v w := by
  have hclash' : ¬ h.Clash w v := fun hc => hclash (clash_comm.1 hc)
  constructor
  · rintro hfreeze ⟨place, o, q, hm, hoq, hback⟩
    obtain ⟨inner, hinner⟩ := exists_at?_of_leadsTo hoq
    obtain ⟨inner, q, hway, hq, hback | hback⟩ := exists_openWay hinner hback
    · exact hway.freeze_ne hm hclash hq hback hfreeze
    · exact hway.symm.freeze_ne hm.symm hclash' hq hback hfreeze.symm
  · intro hloop
    have hloop' : ¬ h.SharesLoop w v := fun hl => hloop hl.symm
    have hre : ∀ place, h.Reenters [] v place ↔ h.Reenters [] w place := fun place =>
      ⟨.of_not_sharesLoop hclash hloop, .of_not_sharesLoop hclash' hloop'⟩
    rw [freeze_eq_iff]
    funext place
    have hcrosses : h.Crosses [] v place ↔ h.Crosses [] w place := by simp only [Crosses, hre]
    rw [cutUnfolding, cutUnfolding, hcrosses, hre place, hunfold]

end Heap
end ResultCache
