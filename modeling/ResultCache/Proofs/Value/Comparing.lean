import Mathlib.Tactic.Tauto
import ResultCache.Proofs.Value.Evolution
import ResultCache.Proofs.Value.Unfolding
import ResultCache.Value.Equality

/-!
# What equality compares

Two values are walked side by side. While two objects are compared both are held, whichever of the
values they belong to, and an object that is held is equal to nothing but itself. So the walk ends
where the values come to one and the same object (`Heap.Meet`), and it fails where one of them,
before they meet, comes to an object that either of them has led through (`Heap.ClashAt`). Apart
from that it compares the trees that the values unfold into, and this is all it does:
`Heap.equalHolding_iff_unfolding`.
-/
namespace ResultCache

/-- Whether both values are one and the same object. -/
def Value.SameObject (v w : Value) : Prop := ∃ o, v = .object o ∧ w = .object o

namespace Heap

variable {h : Heap} {u v w : Value} {held : List ObjId} {place : Place} {o : ObjId}

/-- Who holds more objects has fewer left to enter. -/
theorem unvisited_le {held held' : List ObjId} (hle : held ⊆ held') :
    h.unvisited held' ≤ h.unvisited held :=
  List.countP_mono_left fun i _ hi => by
    have hi' : (⟨i⟩ : ObjId) ∉ held' := by simpa using hi
    simpa using fun hm => hi' (hle hm)

/-- Induction over a walk that enters no object it holds. -/
theorem walk_induct (h : Heap) {P : List ObjId → Value → Prop}
    (step : ∀ held v, (¬ v.IsIn held →
      ∀ a ∈ h.inside v, ∀ held', v.enter held ⊆ held' → P held' a) → P held v)
    (held : List ObjId) (v : Value) : P held v :=
  step held v fun _hv a _ha held' _hle => walk_induct h step held' a
  termination_by (h.unvisited held, sizeOf v)
  decreasing_by
    cases v with
    | list vs =>
      have hlt : sizeOf a < sizeOf vs := List.sizeOf_lt_of_mem _ha
      rcases Nat.lt_or_eq_of_le (unvisited_le (h := h) _hle) with hl | he
      · exact Prod.Lex.left _ _ hl
      · change h.unvisited held' = h.unvisited held at he
        rw [he]
        refine Prod.Lex.right _ ?_
        simp only [Value.list.sizeOf_spec]
        omega
    | object o =>
      obtain ⟨p, hp, -⟩ := List.mem_map.1 _ha
      cases hr : h.record? o with
      | none =>
        rw [props, hr] at hp
        cases hp
      | some r =>
        have ho : o ∉ held := fun ho => _hv ⟨o, ho, rfl⟩
        exact Prod.Lex.left _ _ (Nat.lt_of_le_of_lt (unvisited_le _hle)
          (unvisited_cons_lt (lt_size_of_record? hr) ho))
    | _ => cases _ha

theorem equalAll_iff {vs ws : List Value} : h.equalAll held vs ws = true ↔
    ∀ (i : Nat) (a b : Value), vs[i]? = some a → ws[i]? = some b →
      h.equalHolding held a b = true := by
  induction vs generalizing ws with
  | nil => simp [equalAll]
  | cons v vs ih =>
    cases ws with
    | nil => simp [equalAll]
    | cons w ws =>
      rw [equalAll, Bool.and_eq_true, ih]
      constructor
      · rintro ⟨hv, hvs⟩ (_ | i) a b ha hb
        · cases ha
          cases hb
          exact hv
        · exact hvs i a b ha hb
      · intro hall
        exact ⟨hall 0 v w rfl rfl, fun i => hall (i + 1)⟩

theorem equalProps_iff {ps qs : List (String × Value)} (hlen : ps.length = qs.length) :
    h.equalProps held ps qs = true ↔
      ps.map (·.1) = qs.map (·.1) ∧ h.equalAll held (ps.map (·.2)) (qs.map (·.2)) = true := by
  induction ps generalizing qs with
  | nil =>
    cases qs with
    | nil => simp [equalProps, equalAll]
    | cons q qs => cases hlen
  | cons p ps ih =>
    cases qs with
    | nil => cases hlen
    | cons q qs =>
      obtain ⟨m, v⟩ := p
      obtain ⟨n, w⟩ := q
      rw [equalProps, Bool.and_eq_true, Bool.and_eq_true, beq_iff_eq, ih (Nat.succ.inj hlen)]
      simp only [List.map_cons, equalAll, Bool.and_eq_true, List.cons.injEq]
      exact and_and_and_comm

/-- Two objects that are not the same are equal if neither is held and their properties are equal
for a reader that holds them too. -/
theorem equalHolding_object {p : ObjId} (hne : o ≠ p) (ho : o.index < h.size)
    (hp : p.index < h.size) : h.equalHolding held (.object o) (.object p) = true ↔
      o ∉ held ∧ p ∉ held ∧ (h.props o).map (·.1) = (h.props p).map (·.1) ∧
        h.equalAll (p :: o :: held) ((h.props o).map (·.2)) ((h.props p).map (·.2)) = true := by
  obtain ⟨r, hr⟩ := Option.isSome_iff_exists.1 (record?_isSome_iff.2 ho)
  obtain ⟨s, hs⟩ := Option.isSome_iff_exists.1 (record?_isSome_iff.2 hp)
  rw [equalHolding, if_neg hne]
  by_cases hoh : o ∈ held
  · simp [hoh]
  by_cases hph : p ∈ held
  · simp [hoh, hph]
  rw [dif_neg hoh, if_neg hph]
  split
  · rename_i r' s' hr' hs'
    rw [props_of_record? hr', props_of_record? hs', Bool.and_eq_true, beq_iff_eq]
    constructor
    · rintro ⟨hlen, heq⟩
      exact ⟨hoh, hph, (equalProps_iff hlen).1 heq⟩
    · rintro ⟨-, -, hnames, heq⟩
      have hlen : r'.entries.length = s'.entries.length := by
        simpa using congrArg List.length hnames
      exact ⟨hlen, (equalProps_iff hlen).2 ⟨hnames, heq⟩⟩
  · rename_i hnone
    exact (hnone r s hr hs).elim

/-- What it takes for two values to be equal, one level deep. -/
theorem equalHolding_iff (hv : v.Known h) (hw : w.Known h) :
    h.equalHolding held v w = true ↔ v.SameObject w ∨
      (¬ v.IsIn held ∧ ¬ w.IsIn held ∧ h.label v = h.label w ∧
        ∀ (i : Nat) (a b : Value), (h.inside v)[i]? = some a → (h.inside w)[i]? = some b →
          h.equalHolding (w.enter (v.enter held)) a b = true) := by
  cases v with
  | object o =>
    cases w with
    | object p =>
      by_cases hne : o = p
      · subst hne
        have hsame : (Value.object o).SameObject (.object o) := ⟨o, rfl, rfl⟩
        simp [equalHolding, hsame]
      · have hnot : ¬ (Value.object o).SameObject (.object p) := by
          rintro ⟨q, hq, hq'⟩
          cases hq
          cases hq'
          exact hne rfl
        rw [equalHolding_object hne (hv o .object) (hw p .object), equalAll_iff]
        simp [hnot, Value.IsIn, label, inside, Value.enter]
    | _ => simp [equalHolding, Value.SameObject, label]
  | list vs =>
    cases w with
    | list ws =>
      rw [equalHolding, Bool.and_eq_true, equalAll_iff]
      simp [Value.SameObject, Value.IsIn, label, inside, Value.enter]
    | _ => simp [equalHolding, Value.SameObject, label]
  | _ => cases w <;> simp [equalHolding, Value.SameObject, Value.IsIn, label, inside]

/-- Values with equal labels have parts in the same places. -/
theorem inside_of_label (hlabel : h.label v = h.label w) (i : Nat) :
    (∃ a b, (h.inside v)[i]? = some a ∧ (h.inside w)[i]? = some b) ∨
      ((h.inside v)[i]? = none ∧ (h.inside w)[i]? = none) := by
  have hlen : (h.inside v).length = (h.inside w).length := by
    rw [length_inside, length_inside, hlabel]
  by_cases hi : i < (h.inside v).length
  · exact .inl ⟨_, _, List.getElem?_eq_getElem hi, List.getElem?_eq_getElem (hlen ▸ hi)⟩
  · have hle := Nat.not_lt.1 hi
    exact .inr ⟨List.getElem?_eq_none hle, List.getElem?_eq_none (hlen ▸ hle)⟩

theorem known_of_inside (hh : h.Sound) (hv : v.Known h) {a : Value} (ha : a ∈ h.inside v) :
    a.Known h := by
  cases v with
  | list vs => exact fun o ho => hv o (.list ha ho)
  | object o =>
    obtain ⟨p, hp, rfl⟩ := List.mem_map.1 ha
    obtain ⟨r, hr⟩ := Option.isSome_iff_exists.1 (record?_isSome_iff.2 (hv o .object))
    rw [props_of_record? hr] at hp
    exact hh o r hr p hp
  | _ => cases ha

/-- Equal values unfold into the same tree. -/
theorem unfolding_eq_of_equalHolding (hh : h.Sound) (hv : v.Known h) (hw : w.Known h)
    (hvw : h.equalHolding held v w = true) : h.unfolding v = h.unfolding w := by
  funext place
  induction place generalizing held v w with
  | nil =>
    rcases (equalHolding_iff hv hw).1 hvw with ⟨o, rfl, rfl⟩ | ⟨-, -, hlabel, -⟩
    · rfl
    · exact congrArg some hlabel
  | cons i place ih =>
    rcases (equalHolding_iff hv hw).1 hvw with ⟨o, rfl, rfl⟩ | ⟨-, -, hlabel, hparts⟩
    · rfl
    · rw [unfolding_cons, unfolding_cons]
      rcases inside_of_label hlabel i with ⟨a, b, ha, hb⟩ | ⟨ha, hb⟩
      · rw [ha, hb]
        exact ih (known_of_inside hh hv (List.mem_of_getElem? ha))
          (known_of_inside hh hw (List.mem_of_getElem? hb)) (hparts i a b ha hb)
      · rw [ha, hb]

/-- Whether two values come to the same object at a place. -/
def Meet (h : Heap) (v w : Value) (place : Place) : Prop :=
  ∃ o, h.at? v place = some (.object o) ∧ h.at? w place = some (.object o)

/-- Whether two values, before they meet, come to a place where one of them has an object that is
held, or that one of them has led through on the way. -/
def ClashAt (h : Heap) (held : List ObjId) (v w : Value) (place : Place) : Prop :=
  (∀ outer, outer <+: place → ¬ h.Meet v w outer) ∧
    ∃ o, (h.at? v place = some (.object o) ∨ h.at? w place = some (.object o)) ∧
      (o ∈ held ∨ h.Around v place o ∨ h.Around w place o)

theorem meet_nil : h.Meet v w [] ↔ v.SameObject w :=
  exists_congr fun _ => and_congr Option.some_inj Option.some_inj

theorem not_meet_cons {i : Nat} {a b : Value} (ha : (h.inside v)[i]? = some a)
    (hb : (h.inside w)[i]? = some b) : (∀ outer, outer <+: i :: place → ¬ h.Meet v w outer) ↔
      ¬ v.SameObject w ∧ ∀ outer, outer <+: place → ¬ h.Meet a b outer := by
  have hcons : ∀ outer, h.Meet v w (i :: outer) ↔ h.Meet a b outer := fun outer => by
    rw [Meet, Meet, at?_cons, at?_cons, ha, hb]
    rfl
  constructor
  · intro hall
    refine ⟨fun hs => hall [] List.nil_prefix (meet_nil.2 hs), fun outer hle => ?_⟩
    rw [← hcons]
    exact hall (i :: outer) ((List.prefix_cons_inj i).2 hle)
  · rintro ⟨hne, hall⟩ outer hle
    rcases List.prefix_cons_iff.1 hle with rfl | ⟨inner, rfl, hinner⟩
    · exact fun hm => hne (meet_nil.1 hm)
    · rw [hcons]
      exact hall inner hinner

theorem clashAt_nil : h.ClashAt held v w [] ↔ ¬ v.SameObject w ∧ (v.IsIn held ∨ w.IsIn held) := by
  have hmeet : (∀ outer, outer <+: [] → ¬ h.Meet v w outer) ↔ ¬ v.SameObject w := by
    simp [meet_nil]
  rw [ClashAt, hmeet]
  refine and_congr_right fun _ => ⟨?_, ?_⟩
  · rintro ⟨o, ho, hheld⟩
    have hin : o ∈ held := hheld.resolve_right fun hor => hor.elim around_nil around_nil
    exact ho.imp (fun ho => ⟨o, hin, Option.some.inj ho⟩) fun ho => ⟨o, hin, Option.some.inj ho⟩
  · rintro (⟨o, ho, rfl⟩ | ⟨o, ho, rfl⟩)
    · exact ⟨o, .inl rfl, .inl ho⟩
    · exact ⟨o, .inr rfl, .inl ho⟩

theorem clashAt_cons {i : Nat} {a b : Value} (ha : (h.inside v)[i]? = some a)
    (hb : (h.inside w)[i]? = some b) : h.ClashAt held v w (i :: place) ↔
      ¬ v.SameObject w ∧ h.ClashAt (w.enter (v.enter held)) a b place := by
  rw [ClashAt, ClashAt, not_meet_cons ha hb, and_assoc]
  simp only [at?_cons, around_cons, ha, hb, Option.bind_some, Option.some.injEq, exists_eq_left',
    Value.mem_enter]
  refine and_congr_right fun _ => and_congr_right fun _ => exists_congr fun o =>
    and_congr_right fun _ => ?_
  tauto

theorem not_clashAt_of_equalHolding (hh : h.Sound) (hv : v.Known h) (hw : w.Known h)
    (hvw : h.equalHolding held v w = true) (place : Place) : ¬ h.ClashAt held v w place := by
  induction place generalizing held v w with
  | nil =>
    rw [clashAt_nil]
    rintro ⟨hne, hin⟩
    rcases (equalHolding_iff hv hw).1 hvw with hsame | ⟨hv', hw', -⟩
    · exact hne hsame
    · exact hin.elim hv' hw'
  | cons i place ih =>
    intro hclash
    have hne : ¬ v.SameObject w := fun hs => hclash.1 [] List.nil_prefix (meet_nil.2 hs)
    obtain ⟨-, -, hlabel, hparts⟩ := ((equalHolding_iff hv hw).1 hvw).resolve_left hne
    rcases inside_of_label hlabel i with ⟨a, b, ha, hb⟩ | ⟨ha, hb⟩
    · exact ih (known_of_inside hh hv (List.mem_of_getElem? ha))
        (known_of_inside hh hw (List.mem_of_getElem? hb)) (hparts i a b ha hb)
        ((clashAt_cons ha hb).1 hclash).2
    · obtain ⟨-, o, ho, -⟩ := hclash
      simp [at?_cons, ha, hb] at ho

/-- Values are equal exactly if they unfold into the same tree and do not clash. -/
theorem equalHolding_iff_unfolding (hh : h.Sound) (hv : v.Known h) (hw : w.Known h) :
    h.equalHolding held v w = true ↔
      h.unfolding v = h.unfolding w ∧ ∀ place, ¬ h.ClashAt held v w place := by
  refine ⟨fun hvw => ⟨unfolding_eq_of_equalHolding hh hv hw hvw,
    not_clashAt_of_equalHolding hh hv hw hvw⟩, ?_⟩
  induction held, v using h.walk_induct generalizing w with
  | step held v ih =>
    rintro ⟨hunfold, hclash⟩
    rw [equalHolding_iff hv hw]
    refine or_iff_not_imp_left.2 fun hne => ?_
    have hroot := hclash []
    rw [clashAt_nil, not_and, not_or] at hroot
    obtain ⟨hv', hw'⟩ := hroot hne
    have hlabel : h.label v = h.label w := Option.some.inj (congrFun hunfold [])
    refine ⟨hv', hw', hlabel, fun i a b ha hb => ?_⟩
    have hma := List.mem_of_getElem? ha
    refine ih hv' a hma _ (fun o ho => ?_) (known_of_inside hh hv hma)
      (known_of_inside hh hw (List.mem_of_getElem? hb)) ⟨?_, fun place hc => ?_⟩
    · exact Value.mem_enter.2 (.inr ho)
    · funext place
      have hplace := congrFun hunfold (i :: place)
      rwa [unfolding_cons, unfolding_cons, ha, hb] at hplace
    · exact hclash (i :: place) ((clashAt_cons ha hb).2 ⟨hne, hc⟩)

/-- Whether two values clash somewhere when no object is held beforehand. -/
def Clash (h : Heap) (v w : Value) : Prop := ∃ place, h.ClashAt [] v w place

theorem equal_iff_unfolding (hh : h.Sound) (hv : v.Known h) (hw : w.Known h) :
    h.equal v w = true ↔ h.unfolding v = h.unfolding w ∧ ¬ h.Clash v w := by
  rw [equal, equalHolding_iff_unfolding hh hv hw, Clash, not_exists]

theorem clash_comm : h.Clash v w ↔ h.Clash w v := by
  have hmeet : ∀ outer, h.Meet v w outer ↔ h.Meet w v outer := fun _ =>
    exists_congr fun _ => and_comm
  refine exists_congr fun place => ?_
  simp only [ClashAt, hmeet, or_comm (a := h.at? v place = _), or_comm (a := h.Around v place _)]

/-- A value meets itself wherever it comes to an object. -/
theorem not_clash_self (h : Heap) (v : Value) : ¬ h.Clash v v := by
  rintro ⟨place, hmeet, o, ho, -⟩
  exact hmeet place (List.prefix_refl place) ⟨o, or_self_iff.1 ho, or_self_iff.1 ho⟩

end Heap
end ResultCache
