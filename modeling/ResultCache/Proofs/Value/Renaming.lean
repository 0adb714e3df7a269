import Mathlib.Data.List.Forall2
import Mathlib.Data.Option.Defs
import ResultCache.Proofs.Value.Evolution

/-!
# The same up to the identities of objects

Two values are alike under a pairing of objects if they differ in nothing but the objects that they
name, and these are paired. A pairing is a renaming of one heap's objects to another's if it is one
to one and paired objects have alike properties, so whoever walks both heaps from alike values on
meets the same things in the same places. Frozen copies show no identities: alike values freeze to
the same (`Heap.Renaming.freeze_eq`).
-/
namespace ResultCache

/-- The values differ only in the objects that they name, which are paired. -/
inductive Value.Alike (ρ : ObjId → ObjId → Prop) : Value → Value → Prop where
  | null : Alike ρ .null .null
  | bool (b : Bool) : Alike ρ (.bool b) (.bool b)
  | int (n : Int64) : Alike ρ (.int n) (.int n)
  | float (b : UInt64) : Alike ρ (.float b) (.float b)
  | text (s : String) : Alike ρ (.text s) (.text s)
  | bytes (bs : List UInt8) : Alike ρ (.bytes bs) (.bytes bs)
  | list {vs ws : List Value} (hlen : vs.length = ws.length)
      (hvs : ∀ p ∈ vs.zip ws, Alike ρ p.1 p.2) : Alike ρ (.list vs) (.list ws)
  | object {o p : ObjId} (ho : ρ o p) : Alike ρ (.object o) (.object p)

/-- Both records have the same names, with alike values. -/
def Record.Alike (ρ : ObjId → ObjId → Prop) (r r' : Record) : Prop :=
  ∀ name, Option.Rel (Value.Alike ρ) (NameMap.get? r name) (NameMap.get? r' name)

/-- Objects are paired one to one, and paired objects have alike properties. -/
structure Heap.Renaming (ρ : ObjId → ObjId → Prop) (h h' : Heap) : Prop where
  left : ∀ {o p p'}, ρ o p → ρ o p' → p = p'
  right : ∀ {o o' p}, ρ o p → ρ o' p → o = o'
  records : ∀ {o p}, ρ o p →
    ∃ r r', h.record? o = some r ∧ h'.record? p = some r' ∧ Record.Alike ρ r r'

namespace NameMap

universe u v

variable {α : Type u} {β : Type v}

theorem find_eq_none {name : String} {l : List (String × α)} (hl : ∀ p ∈ l, p.1 ≠ name) :
    find name l = none := by
  induction l with
  | nil => rfl
  | cons q rest ih =>
    rw [find, if_neg (hl q List.mem_cons_self)]
    exact ih fun p hp => hl p (List.mem_cons_of_mem _ hp)

/-- The pairs after a pair have names that come after its name. -/
theorem find_after {q : String × α} {l : List (String × α)}
    (hl : (q :: l).Pairwise fun a b => a.1 < b.1) {name : String} (hname : ¬ q.1 < name) :
    find name l = none := by
  refine find_eq_none fun p hp he => hname ?_
  rw [← he]
  exact (List.pairwise_cons.1 hl).1 p hp

theorem find_before {q : String × α} {l : List (String × α)}
    (hl : (q :: l).Pairwise fun a b => a.1 < b.1) {name : String} (hname : name < q.1) :
    find name (q :: l) = none := by
  have hne : q.1 ≠ name := fun he => String.lt_irrefl name (he ▸ hname)
  rw [find, if_neg hne, find_after hl fun hlt => String.lt_irrefl name (String.lt_trans hname hlt)]

/-- Ordered lists that answer alike name by name are alike pair by pair. -/
theorem forall₂_of_find {R : α → β → Prop} {l : List (String × α)} {l' : List (String × β)}
    (hl : l.Pairwise fun a b => a.1 < b.1) (hl' : l'.Pairwise fun a b => a.1 < b.1)
    (h : ∀ name, Option.Rel R (find name l) (find name l')) :
    List.Forall₂ (fun p q => p.1 = q.1 ∧ R p.2 q.2) l l' := by
  induction l generalizing l' with
  | nil =>
    cases l' with
    | nil => exact .nil
    | cons q l' =>
      have hq := h q.1
      rw [find, find, if_pos rfl] at hq
      cases hq
  | cons p l ih =>
    have hself : find p.1 (p :: l) = some p.2 := by rw [find, if_pos rfl]
    have hp := h p.1
    rw [hself] at hp
    cases l' with
    | nil => cases hp
    | cons q l' =>
      have hself' : find q.1 (q :: l') = some q.2 := by rw [find, if_pos rfl]
      have hname : p.1 = q.1 := by
        rcases Std.lt_trichotomy p.1 q.1 with hlt | heq | hlt
        · rw [find_before hl' hlt] at hp
          cases hp
        · exact heq
        · have hq := h q.1
          rw [hself', find_before hl hlt] at hq
          cases hq
      rw [hname, hself'] at hp
      refine .cons ⟨hname, ?_⟩ (ih (List.pairwise_cons.1 hl).2 (List.pairwise_cons.1 hl').2 ?_)
      · cases hp with | some hR => exact hR
      · intro name
        by_cases hn : p.1 = name
        · subst hn
          rw [find_after hl (String.lt_irrefl _), find_after hl' (hname ▸ String.lt_irrefl _)]
          exact .none
        · have hrest := h name
          rwa [find, if_neg hn, find, if_neg (hname ▸ hn)] at hrest

end NameMap

variable {ρ σ : ObjId → ObjId → Prop}

/-- Functions that agree on related members make the same list of related lists. -/
theorem map_eq_of_forall₂ {α β γ : Type} {R : α → β → Prop} {l : List α} {l' : List β}
    (h : List.Forall₂ R l l') {f : α → γ} {g : β → γ} (hfg : ∀ a ∈ l, ∀ b, R a b → g b = f a) :
    l'.map g = l.map f := by
  induction h with
  | nil => rfl
  | @cons a b l l' hab _ ih =>
    rw [List.map_cons, List.map_cons, hfg a List.mem_cons_self b hab,
      ih fun c hc => hfg c (List.mem_cons_of_mem _ hc)]

namespace Value

theorem Alike.mono (hρσ : ∀ o p, ρ o p → σ o p) {v w : Value} (hvw : v.Alike ρ w) :
    v.Alike σ w := by
  induction hvw with
  | null => exact .null
  | bool b => exact .bool b
  | int n => exact .int n
  | float b => exact .float b
  | text s => exact .text s
  | bytes bs => exact .bytes bs
  | list hlen _ ih => exact .list hlen ih
  | object ho => exact .object (hρσ _ _ ho)

theorem alike_list_iff {vs ws : List Value} :
    (Value.list vs).Alike ρ (.list ws) ↔ List.Forall₂ (Alike ρ) vs ws := by
  rw [List.forall₂_iff_zip]
  refine ⟨fun h => ?_, fun h => .list h.1 fun p hp => h.2 hp⟩
  cases h with | list hlen hvs => exact ⟨hlen, fun hp => hvs _ hp⟩

/-- A value that names only objects paired with themselves is like itself. -/
theorem alike_self (v : Value) (hv : ∀ o, v.Refers o → ρ o o) : v.Alike ρ v :=
  match v with
  | .null => .null
  | .bool b => .bool b
  | .int n => .int n
  | .float b => .float b
  | .text s => .text s
  | .bytes bs => .bytes bs
  | .object o => .object (hv o .object)
  | .list vs => by
    refine alike_list_iff.2 (List.forall₂_same.2 fun w hw => ?_)
    exact alike_self w fun o ho => hv o (.list hw ho)
  termination_by sizeOf v
  decreasing_by
    have hlt := List.sizeOf_lt_of_mem hw
    simp only [list.sizeOf_spec]
    omega

theorem alike_ofOption {v w : Option Value} (hvw : Option.Rel (Alike ρ) v w) :
    (ofOption v).Alike ρ (ofOption w) := by
  cases hvw with
  | none => exact .null
  | some h => exact h

end Value

namespace Record

theorem Alike.mono (hρσ : ∀ o p, ρ o p → σ o p) {r r' : Record} (hr : r.Alike ρ r') :
    r.Alike σ r' := by
  intro name
  have hname := hr name
  generalize NameMap.get? r name = v, NameMap.get? r' name = w at hname
  cases hname with
  | none => exact .none
  | some h => exact .some (h.mono hρσ)

theorem alike_self {r : Record} (hr : ∀ p ∈ r.entries, ∀ o, p.2.Refers o → ρ o o) :
    r.Alike ρ r := by
  intro name
  cases hv : NameMap.get? r name with
  | none => exact .none
  | some v => exact .some (v.alike_self (hr _ (NameMap.find_mem hv)))

end Record

/-- Where nothing changed, every object can stand for itself. -/
theorem Heap.Closed.renaming {h h' : Heap} {K : ObjId → Prop} (hK : h.Closed K)
    (hh : Heap.AgreeOn K h h') : Heap.Renaming (fun o p => K o ∧ o = p) h h' where
  left ho ho' := ho.2.symm.trans ho'.2
  right ho ho' := ho.2.trans ho'.2.symm
  records := by
    rintro o _ ⟨ho, rfl⟩
    obtain ⟨r, hr, hclosed⟩ := hK o ho
    refine ⟨r, r, hr, (hh o ho).trans hr, Record.alike_self fun p hp q hq => ?_⟩
    exact ⟨hclosed p hp q hq, rfl⟩

namespace Heap.Renaming

variable {h h' : Heap} (hρ : Renaming ρ h h')
include hρ

theorem read {o p : ObjId} (ho : ρ o p) (name : String) :
    Option.Rel (Value.Alike ρ) (h.read o name) (h'.read p name) := by
  obtain ⟨r, r', hr, hr', hrr'⟩ := hρ.records ho
  rw [Heap.read, Heap.read, hr, hr']
  exact hrr' name

/-- Two objects that are paired are equal to another two at the same time. -/
theorem eq_iff {o p a b : ObjId} (ho : ρ o p) (ha : ρ a b) : a = o ↔ b = p :=
  ⟨fun he => hρ.left (he ▸ ha) ho, fun he => hρ.right ha (he ▸ ho)⟩

/-- Alike values have the same copy along paths that are paired. -/
theorem freezeAlong_eq {path path' : List ObjId} (hpath : ∀ o p, ρ o p → (o ∈ path ↔ p ∈ path'))
    {v w : Value} (hvw : v.Alike ρ w) : h'.freezeAlong path' w = h.freezeAlong path v := by
  induction path, v using Heap.freezeAlong.induct h generalizing path' w with
  | case1 => cases hvw; rw [freezeAlong, freezeAlong]
  | case2 => cases hvw; rw [freezeAlong, freezeAlong]
  | case3 => cases hvw; rw [freezeAlong, freezeAlong]
  | case4 => cases hvw; rw [freezeAlong, freezeAlong]
  | case5 => cases hvw; rw [freezeAlong, freezeAlong]
  | case6 => cases hvw; rw [freezeAlong, freezeAlong]
  | case7 path vs ih =>
    cases hvw with | @list _ ws hlen hvs =>
    have hall := Value.alike_list_iff.1 (.list hlen hvs)
    rw [freezeAlong_list, freezeAlong_list,
      map_eq_of_forall₂ hall fun v hv w hvw => ih v hv hpath hvw]
  | case8 path o ho =>
    cases hvw with | @object _ p hop =>
    rw [freezeAlong_object_of_mem ho, freezeAlong_object_of_mem ((hpath o p hop).1 ho)]
  | case9 path o ho hr =>
    cases hvw with | @object _ p hop =>
    obtain ⟨r, r', hr', -⟩ := hρ.records hop
    rw [hr] at hr'
    cases hr'
  | case10 path o ho r hr ih =>
    cases hvw with | @object _ p hop =>
    obtain ⟨r₁, r', hr₁, hr', halike⟩ := hρ.records hop
    rw [hr] at hr₁
    cases hr₁
    have ho' : p ∉ path' := fun hp => ho ((hpath o p hop).2 hp)
    have hpath' : ∀ a b, ρ a b → (a ∈ o :: path ↔ b ∈ p :: path') := by
      intro a b hab
      rw [List.mem_cons, List.mem_cons, hpath a b hab, hρ.eq_iff hop hab]
    have hentries := NameMap.forall₂_of_find r.sorted r'.sorted halike
    rw [freezeAlong_object ho hr, freezeAlong_object ho' hr']
    congr 1
    refine map_eq_of_forall₂ hentries fun a ha b hab => ?_
    rw [hab.1, ih ⟨a, ha⟩ hpath' hab.2]

theorem freeze_eq {v w : Value} (hvw : v.Alike ρ w) : h'.freeze w = h.freeze v :=
  hρ.freezeAlong_eq (fun _ _ _ => by simp) hvw

end Heap.Renaming

end ResultCache
