import ResultCache.Proofs.Value.Codec

/-!
# Copies made of frozen values

`Frozen.thawAll` makes new objects. `Made` says all that is known of the values that come out: no
object of before was changed, every object in reach is new and leads only to objects made before it,
and the values freeze to what they were made from. From the order in which they were made it follows
that no object of a copy leads back to itself (`Made.acyclic`).

Main fact: `made_thawAll`.
-/
namespace ResultCache

namespace Heap

/-- Nothing in reach of the roots leads back to itself. -/
def Acyclic (h : Heap) (roots : ObjId → Prop) : Prop :=
  ∀ o, h.Reaches roots o → ¬ Relation.TransGen h.LeadsTo o o

theorem fresh_trans {h i j : Heap} (hi : h.Grows i) (ij : i.Grows j) (o : ObjId) :
    h.Fresh j o ↔ h.Fresh i o ∨ i.Fresh j o := by
  have := hi.size_le
  have := ij.size_le
  unfold Fresh
  omega

theorem fresh_alloc {h i : Heap} (hi : h.Grows i) (r : Record) (o : ObjId) :
    h.Fresh (i.alloc r).2 o ↔ h.Fresh i o ∨ o = (i.alloc r).1 := by
  have hle := hi.size_le
  have ho : o = (i.alloc r).1 ↔ o.index = i.size := by
    cases o
    simp [alloc]
  rw [ho]
  simp only [Fresh, size_alloc]
  omega

/-- The values `vs` were made, with new objects only, between `h` and `h'`, to look like `fs`. -/
structure Made (h h' : Heap) (vs : List Value) (fs : List Frozen) : Prop where
  grows : h.Grows h'
  within : ∀ v ∈ vs, v.Within (h.Fresh h')
  region : h'.Region (h.Fresh h')
  descends : ∀ o q, h.Fresh h' o → h'.LeadsTo o q → q.index < o.index
  freeze : vs.map h'.freeze = fs

theorem Made.nil (h : Heap) : Made h h [] [] where
  grows := .refl h
  within := by simp
  region := fun o ho => absurd ho.1 (Nat.not_le.2 ho.2)
  descends := fun o _ ho => absurd ho.1 (Nat.not_le.2 ho.2)
  freeze := rfl

/-- A value without objects needs none. -/
theorem Made.plain {h : Heap} {v : Value} {f : Frozen} (hv : v.Within fun _ => False)
    (hf : h.freeze v = f) : Made h h [v] [f] where
  grows := .refl h
  within := by simpa using hv.mono fun _ => False.elim
  region := (Made.nil h).region
  descends := (Made.nil h).descends
  freeze := by rw [List.map_singleton, hf]

/-- What was made stays made while more is made. -/
theorem Made.cons {h i j : Heap} {v : Value} {vs : List Value} {f : Frozen} {fs : List Frozen}
    (hv : Made h i [v] [f]) (hvs : Made i j vs fs) : Made h j (v :: vs) (f :: fs) := by
  have hfresh := fresh_trans hv.grows hvs.grows
  have hvw : v.Within (h.Fresh i) := hv.within v List.mem_cons_self
  refine ⟨hv.grows.trans hvs.grows, fun w hw => ?_, fun o ho => ?_, fun o q ho hq => ?_, ?_⟩
  · rcases List.mem_cons.1 hw with hw | hw
    · subst hw
      exact hvw.mono fun o ho => (hfresh o).2 (.inl ho)
    · exact (hvs.within w hw).mono fun o ho => (hfresh o).2 (.inr ho)
  · obtain ⟨r, hr, hw⟩ := (hv.region.of_grows hvs.grows).or hvs.region o ((hfresh o).1 ho)
    exact ⟨r, hr, hw.mono fun o => (hfresh o).2⟩
  · rcases (hfresh o).1 ho with ho | ho
    · refine hv.descends o q ho ?_
      obtain ⟨r, hr, hpq⟩ := hq
      exact ⟨r, (hvs.grows.record? o ho.2).symm.trans hr, hpq⟩
    · exact hvs.descends o q ho hq
  · have hfreeze : j.freeze v = i.freeze v :=
      freeze_congr hv.region.closed (hvs.grows.agreeOn hv.region) fun _ => hvw.of_refers
    have hvf : i.freeze v = f := by simpa using hv.freeze
    rw [List.map_cons, hfreeze, hvf, hvs.freeze]

theorem Made.list {h h' : Heap} {vs : List Value} {fs : List Frozen} (hvs : Made h h' vs fs)
    (hs : fs.length < 2 ^ 64) : Made h h' [.list vs] [.list fs] where
  grows := hvs.grows
  within := by
    have hl : vs.length = fs.length := by rw [← hvs.freeze, List.length_map]
    simpa using Value.Within.list (hl ▸ hs) hvs.within
  region := hvs.region
  descends := hvs.descends
  freeze := by
    have hf : h'.freeze (.list vs) = .list (vs.map h'.freeze) := h'.freezeAlong_list [] vs
    rw [List.map_singleton, hf, hvs.freeze]

/-- A new object around values that were made. The copy of the object walks the values inside the
object, which none of them knows. -/
theorem Made.object {h i : Heap} {r : Record} {ps : List (String × Frozen)}
    (hvs : Made h i (r.entries.map (·.2)) (ps.map (·.2)))
    (hnames : r.entries.map (·.1) = ps.map (·.1)) (hps : (Frozen.object ps).Regular) :
    Made h (i.alloc r).2 [.object (i.alloc r).1] [.object ps] := by
  have hgrows := grows_alloc i r
  have hfresh := fresh_alloc hvs.grows r
  have hself := record?_alloc_self i r
  have hw : Record.Within (h.Fresh i) r := by
    cases hps with | object hs _ names _ =>
    have hlen : r.entries.length = ps.length := by
      simpa using congrArg List.length hnames
    refine ⟨hlen ▸ hs, fun p hp => ?_, fun p hp => hvs.within _ (List.mem_map_of_mem hp)⟩
    have hm : p.1 ∈ ps.map (·.1) := hnames ▸ List.mem_map_of_mem hp
    obtain ⟨q, hq, hqp⟩ := List.mem_map.1 hm
    exact hqp ▸ names q hq
  refine ⟨hvs.grows.trans hgrows, ?_, fun o ho => ?_, fun o q ho hq => ?_, ?_⟩
  · simpa using Value.Within.object ((hfresh _).2 (.inr rfl))
  · rcases (hfresh o).1 ho with ho | ho
    · obtain ⟨r', hr', hw'⟩ := hvs.region.of_grows hgrows o ho
      exact ⟨r', hr', hw'.mono fun o ho => (hfresh o).2 (.inl ho)⟩
    · subst ho
      exact ⟨r, hself, hw.mono fun o ho => (hfresh o).2 (.inl ho)⟩
  · obtain ⟨r', hr', p, hp, hpq⟩ := hq
    rcases (hfresh o).1 ho with ho | ho
    · exact hvs.descends o q ho ⟨r', (hgrows.record? o ho.2).symm.trans hr', p, hp, hpq⟩
    · subst ho
      rw [hself] at hr'
      cases hr'
      exact ((hw.values p hp).of_refers hpq).2
  · have hin : ∀ p ∈ r.entries,
        (i.alloc r).2.freezeAlong [(i.alloc r).1] p.2 = i.freeze p.2 := by
      intro p hp
      refine freezeAlong_congr hvs.region.closed (hgrows.agreeOn hvs.region) (fun o ho => ?_)
        fun _ => (hw.values p hp).of_refers
      have hne : o ≠ (i.alloc r).1 := fun he => by
        have := ho.2
        rw [he] at this
        exact Nat.lt_irrefl _ this
      simp [hne]
    have hentries : r.entries.map (fun p => (p.1, i.freeze p.2)) = ps := by
      have hz : (r.entries.map (·.1)).zip ((r.entries.map (·.2)).map i.freeze) =
          (ps.map (·.1)).zip (ps.map (·.2)) := by rw [hnames, hvs.freeze]
      rw [List.map_map, List.zip_map', List.zip_map'] at hz
      simpa using hz
    have hcopy : (i.alloc r).2.freeze (.object (i.alloc r).1) = .object ps := by
      rw [Heap.freeze, freezeAlong_object (by simp) hself, ← hentries]
      congr 1
      exact List.map_congr_left fun p hp => by rw [hin p hp]
    rw [List.map_singleton, hcopy]

/-- A chain of properties inside what was made goes down in the order of making. -/
theorem Made.descends_trans {h h' : Heap} {vs : List Value} {fs : List Frozen}
    (hvs : Made h h' vs fs) {o q : ObjId} (ho : h.Fresh h' o)
    (hq : Relation.TransGen h'.LeadsTo o q) : h.Fresh h' q ∧ q.index < o.index := by
  induction hq with
  | single hq => exact ⟨hvs.region.of_leadsTo ho hq, hvs.descends _ _ ho hq⟩
  | tail _ hq ih =>
    have := hvs.descends _ _ ih.1 hq
    exact ⟨hvs.region.of_leadsTo ih.1 hq, by omega⟩

/-- Every object in reach of the values is new. -/
theorem Made.fresh {h h' : Heap} {vs : List Value} {fs : List Frozen} (hvs : Made h h' vs fs)
    {o : ObjId} (ho : h'.Reaches (named vs) o) : h.Fresh h' o := by
  refine hvs.region.of_reaches (fun q hq => ?_) ho
  obtain ⟨v, hv, hr⟩ := hq
  exact (hvs.within v hv).of_refers hr

theorem Made.acyclic {h h' : Heap} {vs : List Value} {fs : List Frozen} (hvs : Made h h' vs fs) :
    h'.Acyclic (named vs) := by
  intro o ho hoo
  exact Nat.lt_irrefl _ (hvs.descends_trans (hvs.fresh ho) hoo).2

end Heap

namespace Frozen

open Heap Outline

/-- A copy of a list is made member by member. -/
theorem made_buildAll {fs : List Frozen}
    (hfs : ∀ f ∈ fs, ∀ h, Made h (f.thaw h).2 [(f.thaw h).1] [f]) (h : Heap) :
    Made h (thawAll fs h).2 (thawAll fs h).1 fs := by
  induction fs generalizing h with
  | nil => exact .nil h
  | cons f fs ih =>
    have hf := hfs f List.mem_cons_self h
    exact hf.cons (ih (fun g hg => hfs g (List.mem_cons_of_mem _ hg)) _)

/-- Properties are made value by value, under their names. -/
theorem made_buildProps {ps : List (String × Frozen)}
    (hps : ∀ p ∈ ps, ∀ h, Made h (p.2.thaw h).2 [(p.2.thaw h).1] [p.2]) (h : Heap) :
    Made h (buildProps (outlineProps ps) h).2 ((buildProps (outlineProps ps) h).1.map (·.2))
        (ps.map (·.2)) ∧
      (buildProps (outlineProps ps) h).1.map (·.1) = ps.map (·.1) := by
  induction ps generalizing h with
  | nil => exact ⟨.nil h, rfl⟩
  | cons p ps ih =>
    have hp := hps p List.mem_cons_self h
    obtain ⟨hmade, hnames⟩ := ih (fun q hq => hps q (List.mem_cons_of_mem _ hq)) (p.2.thaw h).2
    exact ⟨hp.cons hmade, congrArg (p.1 :: ·) hnames⟩

theorem made_thaw {f : Frozen} (hf : f.Regular) (h : Heap) :
    Made h (f.thaw h).2 [(f.thaw h).1] [f] := by
  induction hf generalizing h with
  | null => exact .plain .null (by simp only [thaw, outline, build, freeze, freezeAlong])
  | bool b => exact .plain (.bool b) (by simp only [thaw, outline, build, freeze, freezeAlong])
  | int n => exact .plain (.int n) (by simp only [thaw, outline, build, freeze, freezeAlong])
  | float b => exact .plain (.float b) (by simp only [thaw, outline, build, freeze, freezeAlong])
  | text hs => exact .plain (.text hs) (by simp only [thaw, outline, build, freeze, freezeAlong])
  | bytes hs => exact .plain (.bytes hs) (by simp only [thaw, outline, build, freeze, freezeAlong])
  | list hs _ ih => exact (made_buildAll ih h).list hs
  | @object ps hs sorted names hps ih =>
    obtain ⟨hmade, hnames⟩ := made_buildProps ih h
    have hsorted : ((buildProps (outlineProps ps) h).1.map (·.1)).Pairwise (· < ·) := by
      rw [hnames]
      exact List.pairwise_map.2 sorted
    have hentries := NameMap.entries_ofList (List.pairwise_map.1 hsorted)
    rw [← hentries] at hmade hnames
    exact hmade.object hnames (.object hs sorted names hps)

/-- Copies of frozen values look like them and are new through and through. -/
theorem made_thawAll {fs : List Frozen} (hfs : ∀ f ∈ fs, f.Regular) (h : Heap) :
    Made h (thawAll fs h).2 (thawAll fs h).1 fs :=
  made_buildAll (fun f hf => made_thaw (hfs f hf)) h

end Frozen

end ResultCache
