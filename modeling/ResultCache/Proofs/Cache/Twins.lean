import ResultCache.Proofs.Cache.Faithful
import ResultCache.Proofs.Cache.SideBySide

/-!
# Entries with one content

Two runs have objects of their own (`Lockstep.apart`), and entries are related if they stand for one
content, as rows or as bytes (`Entry.Twins`). A copying layer on one side or on both keeps that: what
it makes of an entry stands for the same content.

A run may change objects between the calls, but not those of an entry that was put
(`CacheCall.Untouched`); then related entries stay related, and two caches side by side answer twin
calls alike all along (`CacheOps.Mirrors.answers_alike`).
-/
namespace ResultCache

/-- Objects that somebody looks at, in a region. -/
structure Scope where
  heap : Heap
  objects : ObjId → Prop
  region : heap.Region objects

/-- More objects may be looked at, and those of before are as they were. -/
structure Scope.Later (v w : Scope) : Prop where
  objects : ∀ o, v.objects o → w.objects o
  agree : Heap.AgreeOn v.objects v.heap w.heap

theorem Scope.Later.refl (v : Scope) : v.Later v := ⟨fun _ => id, fun _ _ => rfl⟩

theorem Scope.Later.trans {u v w : Scope} (huv : u.Later v) (hvw : v.Later w) : u.Later w :=
  ⟨fun o ho => hvw.objects o (huv.objects o ho),
    fun o ho => (hvw.agree o (huv.objects o ho)).trans (huv.agree o ho)⟩

/-- The scope after new objects were made. -/
def Scope.extend (v : Scope) {h : Heap} (hh : v.heap.Grows h) (hfresh : h.Region (v.heap.Fresh h)) :
    Scope :=
  ⟨h, fun o => v.objects o ∨ v.heap.Fresh h o, (v.region.of_grows hh).or hfresh⟩

theorem Scope.later_extend (v : Scope) {h : Heap} (hh : v.heap.Grows h)
    (hfresh : h.Region (v.heap.Fresh h)) : v.Later (v.extend hh hfresh) :=
  ⟨fun _ => .inl, hh.agreeOn v.region⟩

/-- Two runs with objects of their own. -/
abbrev Lockstep.apart : Lockstep where
  Moment := Scope × Scope
  left w := w.1.heap
  right w := w.2.heap
  Later v w := v.1.Later w.1 ∧ v.2.Later w.2
  refl w := ⟨.refl w.1, .refl w.2⟩

/-- The entries stand for one content, each where entries are coded or not. Neither is loading. -/
def Entry.Twins (coded coded' : Bool) (w : Scope × Scope) (e e' : Entry) : Prop :=
  ∃ c, c ≠ .loading ∧ e.Stands coded w.1.objects w.1.heap c ∧
    e'.Stands coded' w.2.objects w.2.heap c

section Twins

variable {coded coded' : Bool} {v w : Scope × Scope} {e e' : Entry}

theorem Entry.Stands.of_later {u x : Scope} {c : Content} (hux : u.Later x)
    (he : e.Stands coded u.objects u.heap c) : e.Stands coded x.objects x.heap c :=
  (he.of_agreeOn u.region hux.agree).mono hux.objects

theorem Entry.Twins.later (hvw : Lockstep.apart.Later v w) (he : Twins coded coded' v e e') :
    Twins coded coded' w e e' := by
  obtain ⟨c, hc, hleft, hright⟩ := he
  exact ⟨c, hc, hleft.of_later hvw.1, hright.of_later hvw.2⟩

theorem Entry.Twins.swap (he : Twins coded coded' w e e') : Twins coded' coded w.swap e' e := by
  obtain ⟨c, hc, hleft, hright⟩ := he
  exact ⟨c, hc, hright, hleft⟩

/-- Entries of which neither is coded have one content. -/
theorem Entry.Twins.content_eq (he : Twins false false w e e') :
    e.content w.1.heap = e'.content w.2.heap := by
  obtain ⟨c, -, hleft, hright⟩ := he
  exact hleft.eq_content.symm.trans hright.eq_content

theorem EndAlike.swap {r r' : Result (Option Entry)}
    (hends : EndAlike (Entry.Twins coded coded' w) r r') :
    EndAlike (Entry.Twins coded' coded w.swap) r' r := by
  cases hends with
  | error f => exact .error f
  | ok hab =>
    cases hab with
    | none => exact .ok .none
    | some he => exact .ok (.some he.swap)

end Twins

section Copying

variable {σ τ : Type} {B : CacheOps σ} {C : CacheOps τ} {coded coded' : Bool}
  {Alike : Scope × Scope → σ → τ → Prop}

/-- The two runs may change places. -/
theorem CacheOps.Mirrors.swap (hB : B.Mirrors .apart (Entry.Twins coded coded') C Alike) :
    C.Mirrors .apart (Entry.Twins coded' coded) B fun w t s => Alike w.swap s t where
  id hs := (hB.id hs).symm
  later {w w' _ _} hw hs := by
    have hswap : Lockstep.apart.Later w.swap w'.swap := hw.symm
    exact hB.later hswap hs
  size now hs := ⟨(hB.size now hs).1.symm, (hB.size now hs).2⟩
  put now k hs he := ⟨(hB.put now k hs he.swap).1.symm, (hB.put now k hs he.swap).2⟩
  get now k hs := by
    obtain ⟨⟨w', hw, hleft, hright, hends⟩, hget⟩ := hB.get now k hs
    exact ⟨⟨w'.swap, hw.symm, hright, hleft, hends.swap⟩, hget⟩
  remove now k hs := by
    obtain ⟨⟨w', hw, hleft, hright, hends⟩, hremove⟩ := hB.remove now k hs
    exact ⟨⟨w'.swap, hw.symm, hright, hleft, hends.swap⟩, hremove⟩
  clear now hs := hB.clear now hs

/-- Bytes are restored to rows of the same content, made of new objects. -/
theorem EndAlike.restored {w : Scope × Scope} {r : Result (Option Entry)} {e : Option Entry}
    (hends : EndAlike (Entry.Twins coded true w) r (.ok e)) (coded' : Bool) (cache : String) :
    ∃ w', Lockstep.apart.Later w w' ∧ w'.1 = w.1 ∧ w'.2.heap = (Copying.restored cache w.2.heap e).2 ∧
      EndAlike (Entry.Twins coded coded' w') r (Copying.restored cache w.2.heap e).1 := by
  cases hends with
  | ok hab =>
    cases hab with
    | none => exact ⟨w, Lockstep.apart.refl w, rfl, rfl, .ok .none⟩
    | some he =>
      obtain ⟨c, hc, hleft, hright⟩ := he
      cases hright with
      | absence => exact ⟨w, Lockstep.apart.refl w, rfl, rfl, .ok (.some ⟨_, hc, hleft, .absence⟩)⟩
      | loading => exact absurd rfl hc
      | rows hvs hlen =>
        exact ⟨w, Lockstep.apart.refl w, rfl, rfl, .ok (.some ⟨_, hc, hleft, .rows hvs hlen⟩)⟩
      | @encoded bs fs _ hbs hfs hlen =>
        have hmade := Frozen.made_thawAll hfs w.2.heap
        have hlater := w.2.later_extend hmade.grows hmade.region
        rw [Copying.restored, hbs]
        refine ⟨(w.1, w.2.extend hmade.grows hmade.region), ⟨.refl w.1, hlater⟩, rfl, rfl,
          .ok (.some ⟨.rows fs, hc, hleft, ?_⟩)⟩
        exact (Entry.stands_of_made hmade hlen).mono fun _ => .inr

/-- What a read through a copying layer does beside one that goes past it. -/
theorem Lockstep.Reads.restoreBelow {w : Scope × Scope} {r : Result (Option Entry) × Heap × σ}
    {r' : Result (Option Entry) × Heap × τ} (hr : Lockstep.apart.Reads (Entry.Twins coded true) w r r')
    (coded' : Bool) (cache : String) :
    Lockstep.apart.Reads (Entry.Twins coded coded') w r (Copying.restoreBelow cache r') := by
  obtain ⟨w', hw, hleft, hright, hends⟩ := hr
  obtain ⟨y, h, s⟩ := r
  obtain ⟨x, h', t⟩ := r'
  obtain rfl : w'.2.heap = h' := hright
  cases x with
  | error f =>
    cases hends
    exact ⟨w', hw, hleft, rfl, .error f⟩
  | ok e =>
    obtain ⟨w'', hw', hsame, hheap, hends⟩ := hends.restored coded' cache
    refine ⟨w'', ⟨hw.1.trans hw'.1, hw.2.trans hw'.2⟩, ?_, hheap, hends⟩
    exact (congrArg Scope.heap hsame).trans hleft

theorem Copying.mirrors_right (hB : B.Mirrors .apart (Entry.Twins coded true) C Alike)
    (coded' : Bool) :
    B.Mirrors .apart (Entry.Twins coded coded') (Copying.ops C) fun w s t => Alike w s t.2 where
  id hs := hB.id hs
  later hw hs := hB.later hw hs
  size now hs := hB.size now hs
  put {w s t e e'} now k hs he := by
    obtain ⟨c, hc, hleft, hright⟩ := he
    obtain ⟨e'', hstored⟩ : ∃ e'', Copying.stored (C.id t.2) w.2.heap e' = .ok e'' := by
      cases hright with
      | loading => exact absurd rfl hc
      | _ => exact ⟨_, rfl⟩
    change (B.put now w.1.heap k e s).1 = (Copying.put C now w.2.heap k e' t).1 ∧
      Alike w (B.put now w.1.heap k e s).2 (Copying.put C now w.2.heap k e' t).2.2
    rw [Copying.put, hstored]
    exact hB.put now k hs ⟨c, hc, hleft, Copying.stands_stored w.2.region hright hstored⟩
  get {w s t} now k hs := by
    obtain ⟨hreads, hget⟩ := hB.get now k hs
    refine ⟨hreads.restoreBelow coded' _, ?_⟩
    change Alike w _ (Copying.restoreBelow _ (C.get now w.2.heap k t.2)).2.2.2
    rw [Copying.snd_restoreBelow]
    exact hget
  remove {w s t} now k hs := by
    obtain ⟨hreads, hremove⟩ := hB.remove now k hs
    refine ⟨hreads.restoreBelow coded' _, ?_⟩
    change Alike w _ (Copying.restoreBelow _ (C.remove now w.2.heap k t.2)).2.2.2
    rw [Copying.snd_restoreBelow]
    exact hremove
  clear now hs := hB.clear now hs

/-- Two copying layers beside one another. -/
theorem Copying.mirrors (hB : B.Mirrors .apart (Entry.Twins true true) C Alike)
    (coded coded' : Bool) :
    (Copying.ops B).Mirrors .apart (Entry.Twins coded coded') (Copying.ops C) (LayerAlike Alike) := by
  have hright := Copying.mirrors_right hB coded'
  have hboth := (Copying.mirrors_right hright.swap coded).swap
  have hbeside : LayerAlike Alike = fun w (s : Unit × σ) (t : Unit × τ) => Alike w s.2 t.2 := by
    funext w s t
    exact propext (and_iff_right rfl)
  rw [hbeside]
  exact hboth

end Copying

/-- The objects that an entry leads to. -/
def Entry.objects (h : Heap) : Entry → ObjId → Prop
  | .rows vs => h.Reaches (Heap.named vs)
  | _ => fun _ => False

/-- What an entry of a caller leads to is a region, in which it stands for its content. -/
theorem Entry.Plain.stands {h : Heap} {e : Entry} (he : e.Plain h) :
    h.Region (e.objects h) ∧ e.Stands false (e.objects h) h (e.content h) := by
  obtain ⟨K, c, hK, hec⟩ := he
  cases hec with
  | absence => exact ⟨h.region_empty, .absence⟩
  | loading => exact ⟨h.region_empty, .loading⟩
  | @rows vs hvs hlen =>
    have hroots : ∀ o, Heap.named vs o → K o := fun o ⟨v, hv, ho⟩ => (hvs v hv).of_refers ho
    exact ⟨hK.reaches hroots, .rows (Heap.within_reaches hvs) hlen⟩
  | encoded hcoded => cases hcoded

namespace CacheCall

/-- What objects are like when a call is made that may look at them. -/
def heap? : CacheCall → Option Heap
  | put _ h _ _ | get _ h _ | remove _ h _ => some h
  | clear _ | size _ => none

/-- No object of an entry was changed after the entry was put. -/
def Untouched : List CacheCall → Prop
  | [] => True
  | c :: past => Untouched past ∧ ∀ h, c.heap? = some h → ∀ now h' k e, .put now h' k e ∈ past →
    Heap.AgreeOn (e.objects h') h' h

theorem untouched_of_heap {h : Heap} {past : List CacheCall}
    (hpast : ∀ c ∈ past, ∀ h', c.heap? = some h' → h' = h) : Untouched past := by
  induction past with
  | nil => trivial
  | cons c past ih =>
    refine ⟨ih fun d hd => hpast d (List.mem_cons_of_mem _ hd), fun h₁ hc now h₂ k e hput => ?_⟩
    obtain rfl := hpast c List.mem_cons_self h₁ hc
    obtain rfl := hpast _ (List.mem_cons_of_mem _ hput) h₂ rfl
    exact fun _ _ => rfl

/-- The two calls are one, made in runs with objects of their own. Entries that are put show the
same; they are rows or the absence of rows. -/
inductive Twin : CacheCall → CacheCall → Prop where
  | put (now : Instant) (k : Key) {h h' : Heap} {e e' : Entry} (he : e.Plain h) (he' : e'.Plain h')
      (hloading : e ≠ .loading) (hsame : e.content h = e'.content h') :
      Twin (.put now h k e) (.put now h' k e')
  | get (now : Instant) (h h' : Heap) (k : Key) : Twin (.get now h k) (.get now h' k)
  | remove (now : Instant) (h h' : Heap) (k : Key) : Twin (.remove now h k) (.remove now h' k)
  | clear (now : Instant) : Twin (.clear now) (.clear now)
  | size (now : Instant) : Twin (.size now) (.size now)

/-- The answers are the same, but for the objects of the rows that are found. -/
inductive Answer.Alike : Answer → Answer → Prop where
  | stored (r : Result Unit) : Alike (.stored r) (.stored r)
  | failed (f : Fault) (h h' : Heap) : Alike (.found (.error f) h) (.found (.error f) h')
  | missed (h h' : Heap) : Alike (.found (.ok none) h) (.found (.ok none) h')
  | hit {h h' : Heap} {e e' : Entry} (hsame : e.content h = e'.content h') :
      Alike (.found (.ok (some e)) h) (.found (.ok (some e')) h')
  | cleared : Alike .cleared .cleared
  | counted (n : Nat) : Alike (.counted n) (.counted n)

theorem Answer.alike_of_paired {w : Scope × Scope} {a b : Answer}
    (hab : a.Paired .apart (Entry.Twins false false) w b) : a.Alike b := by
  cases hab with
  | stored r => exact .stored r
  | found _ hends =>
    cases hends with
    | error f => exact .failed f _ _
    | ok hr =>
      cases hr with
      | none => exact .missed _ _
      | some he => exact .hit he.content_eq
  | cleared => exact .cleared
  | counted n => exact .counted n

end CacheCall

/-- The scope holds objects that were put, and all that were put are as they were. -/
structure Scope.Follows (v : Scope) (past : List CacheCall) : Prop where
  objects : ∀ o, v.objects o → ∃ now h k e, .put now h k e ∈ past ∧ e.objects h o
  agree : ∀ now h k e, .put now h k e ∈ past → Heap.AgreeOn (e.objects h) h v.heap

section Follows

variable {v : Scope} {past : List CacheCall} {c : CacheCall}

theorem Scope.Follows.cons (hv : v.Follows past) (hc : ∀ now h k e, c ≠ .put now h k e) :
    v.Follows (c :: past) := by
  constructor
  · intro o ho
    obtain ⟨now, h, k, e, hput, he⟩ := hv.objects o ho
    exact ⟨now, h, k, e, List.mem_cons_of_mem _ hput, he⟩
  · intro now h k e hput
    rcases List.mem_cons.1 hput with hput | hput
    · exact absurd hput.symm (hc now h k e)
    · exact hv.agree now h k e hput

/-- When the next call is made, the objects of the scope are as they were. -/
theorem Scope.Follows.agreeOn {h : Heap} (hv : v.Follows past)
    (hh : ∀ now h' k e, .put now h' k e ∈ past → Heap.AgreeOn (e.objects h') h' h) :
    Heap.AgreeOn v.objects v.heap h := by
  intro o ho
  obtain ⟨now, h', k, e, hput, he⟩ := hv.objects o ho
  exact (hh now h' k e hput o he).trans (hv.agree now h' k e hput o he).symm

/-- The scope at the next call. -/
theorem Scope.Follows.next {h : Heap} (hv : v.Follows past)
    (hh : ∀ now h' k e, .put now h' k e ∈ past → Heap.AgreeOn (e.objects h') h' h) :
    ∃ v' : Scope, v'.heap = h ∧ v.Later v' ∧ v'.Follows past := by
  have hagree := hv.agreeOn hh
  exact ⟨⟨h, v.objects, v.region.of_agreeOn hagree⟩, rfl, ⟨fun _ => id, hagree⟩, hv.objects, hh⟩

/-- The scope at a put, with the objects of the entry. -/
theorem Scope.Follows.put {h : Heap} {e : Entry} (hv : v.Follows past) (now : Instant) (k : Key)
    (hh : ∀ now h' k e, .put now h' k e ∈ past → Heap.AgreeOn (e.objects h') h' h)
    (he : e.Plain h) :
    ∃ v' : Scope, v'.heap = h ∧ v.Later v' ∧ v'.Follows (.put now h k e :: past) ∧
      e.Stands false v'.objects h (e.content h) := by
  have hagree := hv.agreeOn hh
  obtain ⟨hregion, hstands⟩ := he.stands
  refine ⟨⟨h, fun o => v.objects o ∨ e.objects h o, (v.region.of_agreeOn hagree).or hregion⟩, rfl,
    ⟨fun _ => .inl, hagree⟩, ⟨?_, ?_⟩, hstands.mono fun _ => .inr⟩
  · rintro o (ho | ho)
    · obtain ⟨now', h', k', e', hput, he'⟩ := hv.objects o ho
      exact ⟨now', h', k', e', List.mem_cons_of_mem _ hput, he'⟩
    · exact ⟨now, h, k, e, List.mem_cons_self, ho⟩
  · intro now' h' k' e' hput
    rcases List.mem_cons.1 hput with hput | hput
    · cases hput
      exact fun _ _ => rfl
    · exact hh now' h' k' e' hput

end Follows

/-- Two caches side by side in runs of twin calls answer alike all along, if in neither run an object
is changed after it was put. -/
theorem CacheOps.Mirrors.answers_alike {σ τ : Type} {B : CacheOps σ} {C : CacheOps τ}
    {Alike : Scope × Scope → σ → τ → Prop} (hB : B.Mirrors .apart (Entry.Twins false false) C Alike)
    {s : σ} {t : τ} (hs : ∀ w, Alike w s t) {past past' : List CacheCall}
    (hpast : List.Forall₂ CacheCall.Twin past past') (hleft : CacheCall.Untouched past)
    (hright : CacheCall.Untouched past') :
    List.Forall₂ CacheCall.Answer.Alike (CacheCall.answers B s past) (CacheCall.answers C t past') ∧
      ∃ w : Scope × Scope, w.1.Follows past ∧ w.2.Follows past' ∧
        Alike w (CacheCall.after B s past) (CacheCall.after C t past') := by
  induction hpast with
  | nil =>
    let v : Scope := ⟨.empty, fun _ => False, Heap.empty.region_empty⟩
    have hv : v.Follows [] := ⟨fun _ ho => ho.elim, fun _ _ _ _ hput => absurd hput List.not_mem_nil⟩
    exact ⟨.nil, (v, v), hv, hv, hs _⟩
  | @cons c c' past past' hc _ ih =>
    obtain ⟨hanswers, w, hw, hw', hafter⟩ := ih hleft.1 hright.1
    -- The moment of the call, which pairs the calls and comes after the moment of the last one.
    obtain ⟨v, hlater, hpaired, hv, hv'⟩ : ∃ v : Scope × Scope, Lockstep.apart.Later w v ∧
        c.Paired .apart (Entry.Twins false false) v c' ∧ v.1.Follows (c :: past) ∧
        v.2.Follows (c' :: past') := by
      cases hc with
      | put now k he he' hloading hsame =>
        obtain ⟨v, rfl, hlater, hv, hstands⟩ := hw.put now k (hleft.2 _ rfl) he
        obtain ⟨v', rfl, hlater', hv', hstands'⟩ := hw'.put now k (hright.2 _ rfl) he'
        rw [← hsame] at hstands'
        refine ⟨(v, v'), ⟨hlater, hlater'⟩, .put now k ⟨_, ?_, hstands, hstands'⟩, hv, hv'⟩
        cases hstands with
        | loading => exact absurd rfl hloading
        | _ => nofun
      | get now h h' k =>
        obtain ⟨v, rfl, hlater, hv⟩ := hw.next (hleft.2 _ rfl)
        obtain ⟨v', rfl, hlater', hv'⟩ := hw'.next (hright.2 _ rfl)
        exact ⟨(v, v'), ⟨hlater, hlater'⟩, .get now k, hv.cons nofun, hv'.cons nofun⟩
      | remove now h h' k =>
        obtain ⟨v, rfl, hlater, hv⟩ := hw.next (hleft.2 _ rfl)
        obtain ⟨v', rfl, hlater', hv'⟩ := hw'.next (hright.2 _ rfl)
        exact ⟨(v, v'), ⟨hlater, hlater'⟩, .remove now k, hv.cons nofun, hv'.cons nofun⟩
      | clear now => exact ⟨w, Lockstep.apart.refl w, .clear now, hw.cons nofun, hw'.cons nofun⟩
      | size now => exact ⟨w, Lockstep.apart.refl w, .size now, hw.cons nofun, hw'.cons nofun⟩
    obtain ⟨hanswer, hrun⟩ := hB.run (hB.later hlater hafter) hpaired
    exact ⟨.cons (CacheCall.Answer.alike_of_paired hanswer) hanswers, v, hv, hv', hrun⟩

end ResultCache
