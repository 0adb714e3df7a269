import Mathlib.Logic.Function.Basic
import ResultCache.Proofs.Cache.Faithful
import ResultCache.Proofs.Value.Evolution
import ResultCache.Proofs.Walk

/-!
# Buffers and caches that hold the right rows

`R k fs` says that `fs` are right rows for the key `k`. A buffer is right (`Buffer.Right`) if it
puts only right rows, and every key that it missed was put, or lost its put to a clear, or is one of
the few that are being loaded (`waiting`).

A commit of a right buffer publishes right rows, and the absence of the keys that it lost
(`Buffer.Loses`). So `L k`, which says that a cache holds for `k` only an absence where it should
hold rows, changes with every commit in a known way (`Buffer.lostAfter`), and caches hold exactly
the absence of the lost keys and right rows for the others (`Contents.exact`). Reads answer
accordingly (`Buffers.Right.get`), and nothing but a commit changes which keys are lost
(`Buffers.Right.commit`).
-/
namespace ResultCache

variable {R : Key → List Frozen → Prop} {K K' : ObjId → Prop} {h h' : Heap}

/-- An entry of right rows, with its objects in `K`. -/
def Entry.Right (R : Key → List Frozen → Prop) (K : ObjId → Prop) (h : Heap) (k : Key)
    (e : Entry) : Prop := ∃ fs, R k fs ∧ e.Stands false K h (.rows fs)

theorem Entry.Right.mono {S : Key → List Frozen → Prop} {k : Key} {e : Entry}
    (hRS : ∀ k fs, R k fs → S k fs) (he : e.Right R K h k) : e.Right S K h k := by
  obtain ⟨fs, hfs, hstands⟩ := he
  exact ⟨fs, hRS k fs hfs, hstands⟩

theorem Entry.Right.of_agreeOn {k : Key} {e : Entry} (hK : h.Region K)
    (hh : Heap.AgreeOn K h h') (hKK' : ∀ o, K o → K' o) (he : e.Right R K h k) :
    e.Right R K' h' k := by
  obtain ⟨fs, hfs, hstands⟩ := he
  exact ⟨fs, hfs, (hstands.of_agreeOn hK hh).mono hKK'⟩

/-- What a session may be answered: right rows, and the absence of lost keys. -/
def Contents.right (R : Key → List Frozen → Prop) (L : Key → Prop) : Contents :=
  fun k c => (∃ fs, R k fs ∧ c = .rows fs) ∨ (c = .absence ∧ L k)

/-- What a cache may hold: the absence of lost keys, and right rows for the others. -/
def Contents.exact (R : Key → List Frozen → Prop) (L : Key → Prop) : Contents :=
  fun k c => (L k ∧ c = .absence) ∨ (¬ L k ∧ ∃ fs, R k fs ∧ c = .rows fs)

theorem Contents.exact_le_right (R : Key → List Frozen → Prop) (L : Key → Prop) :
    (exact R L).Le (right R L) := by
  intro k c hc
  rcases hc with ⟨hk, hc⟩ | ⟨-, hc⟩
  · exact .inr ⟨hc, hk⟩
  · exact .inl hc

theorem Contents.exact_mono {S : Key → List Frozen → Prop} {L : Key → Prop}
    (hRS : ∀ k fs, R k fs → S k fs) : (exact R L).Le (exact S L) := by
  intro k c hc
  rcases hc with hc | ⟨hk, fs, hfs, hc⟩
  · exact .inl hc
  · exact .inr ⟨hk, fs, hRS k fs hfs, hc⟩

theorem Answers.mono {coded : Bool} {m n : Contents} {k : Key} {r : Result (Option Entry)}
    (hmn : m.Le n) (ha : Answers coded m K h k r h') : Answers coded n K h k r h' := by
  refine ⟨ha.grows, ha.region, fun e he => ?_⟩
  obtain ⟨c, hc, hstands⟩ := ha.stands e he
  exact ⟨c, hmn k c hc, hstands⟩

section Calls

variable {σ : Type} {B : CacheOps σ} {Holds : Contents → (ObjId → Prop) → Heap → σ → Prop}
  {m : Contents}

/-- Stored entries replace what a cache holds for their keys. -/
theorem Buffer.storeAll_holds (hB : B.Faithful false Holds) (hK : h.Region K) {n : Contents}
    {ws : List (Key × Entry)}
    (hws : ∀ w ∈ ws, ∃ c, c ≠ .loading ∧ n w.1 c ∧ w.2.Stands false K h c)
    (hmn : ∀ k c, m k c → n k c ∨ k ∈ ws.map Prod.fst)
    (now : Instant) {s : σ} (hs : Holds m K h s) : Holds n K h (storeAll B h now ws s).2 := by
  induction ws generalizing now s m with
  | nil => exact hB.mono (fun k c hm => (hmn k c hm).resolve_right (by simp)) hs
  | cons w ws ih =>
    obtain ⟨c, hfinished, hc, hwc⟩ := hws w List.mem_cons_self
    have hput := hB.put now w.1 hK hs hwc
    rw [hB.put_ok now w.1 hK hs hwc hfinished] at hput
    have hset : ∀ k d, m.set w.1 c k d → n k d ∨ k ∈ ws.map Prod.fst := by
      intro k d hd
      have hd' : if k = w.1 then d = c else m k d := hd
      by_cases hk : k = w.1
      · rw [if_pos hk] at hd'
        rw [hk, hd']
        exact .inl hc
      · rw [if_neg hk] at hd'
        have hmem := hmn k d hd'
        rw [List.map_cons, List.mem_cons] at hmem
        exact hmem.imp_right fun hm => hm.resolve_left hk
    have hrest := ih (fun v hv => hws v (List.mem_cons_of_mem _ hv)) hset (now + 1) hput
    rw [storeAll]
    dsimp only
    split <;> exact hrest

theorem Buffer.removeAll_holds (hB : B.Faithful false Holds) (hK : h.Region K) (ks : List Key)
    (now : Instant) {s : σ} (hs : Holds m K h s) : Holds m K h (removeAll B h now ks s) := by
  induction ks generalizing now s with
  | nil => exact hs
  | cons k ks ih =>
    obtain ⟨-, -, hremove⟩ := hB.remove now k hK hs
    exact ih (now + 1) (hB.mono (Contents.drop_le m k) hremove)

end Calls

namespace Buffer

/-- Only right rows are put, and a key that was missed was put since, unless a clear dropped the put
or the key is waiting to be loaded. -/
structure Right (R : Key → List Frozen → Prop) (K : ObjId → Prop) (h : Heap)
    (waiting : Key → Prop) (b : Buffer) : Prop where
  pending : ∀ k e, b.pending.get? k = some e → e.Right R K h k
  missed : ∀ k ∈ b.missed, (b.pending.get? k).isSome ∨ b.clearing ∨ waiting k

variable {waiting waiting' : Key → Prop} {b : Buffer} {k : Key}

theorem right_empty : empty.Right R K h waiting :=
  ⟨fun _ _ he => (by cases he), fun _ hk => (by cases hk)⟩

theorem Right.mono {S : Key → List Frozen → Prop} (hRS : ∀ k fs, R k fs → S k fs)
    (hb : b.Right R K h waiting) : b.Right S K h waiting :=
  ⟨fun k e he => (hb.pending k e he).mono hRS, hb.missed⟩

theorem Right.of_agreeOn (hK : h.Region K) (hh : Heap.AgreeOn K h h') (hKK' : ∀ o, K o → K' o)
    (hb : b.Right R K h waiting) : b.Right R K' h' waiting :=
  ⟨fun k e he => (hb.pending k e he).of_agreeOn hK hh hKK', hb.missed⟩

theorem Right.wait (hw : ∀ k, waiting k → waiting' k) (hb : b.Right R K h waiting) :
    b.Right R K h waiting' :=
  ⟨hb.pending, fun k hk => (hb.missed k hk).imp_right (Or.imp_right (hw k))⟩

theorem Right.of_reordered {b' : Buffer} (hb : b.Right R K h waiting) (hr : b.Reordered b') :
    b'.Right R K h waiting := by
  refine ⟨fun k e he => ?_, fun k hk => ?_⟩
  · rw [hr.get?] at he
    exact hb.pending k e he
  · rw [hr.get?, hr.clearing]
    exact hb.missed k (hr.mem_missed.1 hk)

/-- A put of right rows ends the waiting for its key. -/
theorem Right.put (hb : b.Right R K h fun j => waiting j ∨ j = k) {e : Entry}
    (he : e.Right R K h k) : (b.put k e).Right R K h waiting := by
  refine ⟨fun j f hf => ?_, fun j hj => ?_⟩
  · have hf' : (b.pending.insert k e).get? j = some f := hf
    by_cases hjk : j = k
    · subst hjk
      rw [Table.get?_insert_self] at hf'
      cases hf'
      exact he
    · rw [Table.get?_insert_of_ne _ _ hjk] at hf'
      exact hb.pending j f hf'
  · change ((b.pending.insert k e).get? j).isSome ∨ _
    by_cases hjk : j = k
    · subst hjk
      simp
    · rw [Table.get?_insert_of_ne _ _ hjk]
      exact (hb.missed j hj).imp_right (Or.imp_right fun hw => hw.resolve_right hjk)

/-- A clear drops every put. -/
theorem right_clear (b : Buffer) : b.clear.Right R K h waiting :=
  ⟨fun _ _ he => (by cases he), fun _ _ => .inr (.inl rfl)⟩

theorem Right.miss (hb : b.Right R K h waiting) (k : Key) :
    (b.miss k).Right R K h fun j => waiting j ∨ j = k := by
  have hb' : b.Right R K h fun j => waiting j ∨ j = k := hb.wait fun _ => .inl
  rw [Buffer.miss]
  split
  · exact hb'
  · refine ⟨hb'.pending, fun j hj => ?_⟩
    rcases List.mem_cons.1 hj with hj | hj
    · exact .inr (.inr (.inr hj))
    · exact hb'.missed j hj

/-- Whether the buffer has lost a key: it was missed, and a clear dropped the put that followed. -/
def Loses (b : Buffer) (k : Key) : Prop := k ∈ b.missed ∧ b.clearing ∧ b.pending.get? k = none

/-- Whether a commit replaces what the cache holds for a key, be it by nothing. -/
def Replaces (b : Buffer) (k : Key) : Prop := b.clearing ∨ (b.pending.get? k).isSome

/-- The lost keys of the cache after a commit of the buffer. -/
def lostAfter (b : Buffer) (L : Key → Prop) (k : Key) : Prop :=
  b.Loses k ∨ (¬ b.Replaces k ∧ L k)

theorem lostAfter_of_reordered {b' : Buffer} (hr : b.Reordered b') (L : Key → Prop) :
    b'.lostAfter L = b.lostAfter L := by
  funext k
  simp only [lostAfter, Loses, Replaces, hr.get?, hr.clearing, hr.mem_missed]

theorem lostAfter_empty (L : Key → Prop) : empty.lostAfter L = L := by
  funext k
  apply propext
  constructor
  · intro hk
    exact (hk.resolve_left fun hl => by cases hl.1).2
  · intro hk
    exact .inr ⟨by simp [Replaces, empty], hk⟩

variable {L : Key → Prop} {id : String} {c : Cache}

/-- A read answers with right rows or a lost absence. If it finds nothing, the key is waiting to be
loaded. -/
theorem Right.get (hb : b.Right R K h waiting) (hK : h.Region K)
    (hc : Cache.Holds id (.exact R L) K h c) (now : Instant) (k : Key) :
    Answers false (.right R L) K h k (Buffer.get Cache.ops now h k b c).1
        (Buffer.get Cache.ops now h k b c).2.1 ∧
      (Buffer.get Cache.ops now h k b c).2.2.1.Right R K h
        (fun j => waiting j ∨ (Buffer.get Cache.ops now h k b c).1 = .ok none ∧ j = k) ∧
      Cache.Holds id (.exact R L) K h (Buffer.get Cache.ops now h k b c).2.2.2 := by
  have hb' : ∀ w : Prop, b.Right R K h fun j => waiting j ∨ w ∧ j = k :=
    fun _ => hb.wait fun _ => .inl
  rw [Buffer.get]
  split
  · rename_i e he
    obtain ⟨fs, hfs, hstands⟩ := hb.pending k e he
    refine ⟨⟨.refl h, h.region_fresh_self, fun f hf => ?_⟩, hb' _, hc⟩
    obtain rfl : e = f := by simpa using hf
    exact ⟨.rows fs, .inl ⟨fs, hfs, rfl⟩, hstands.mono fun _ => .inl⟩
  · split
    · exact ⟨.none (by simp), hb' _, hc⟩
    · obtain ⟨hexact, hget⟩ := (Cache.faithful id).get now k hK hc
      have hanswers := hexact.mono (Contents.exact_le_right R L)
      generalize Cache.ops.get now h k c = r at hanswers hget ⊢
      rcases r with ⟨_ | _ | e, h', c'⟩
      · exact ⟨hanswers, hb' _, hget⟩
      · exact ⟨hanswers, (hb.miss k).wait fun j => Or.imp_right fun hj => ⟨rfl, hj⟩, hget⟩
      · refine ⟨⟨hanswers.grows, hanswers.region, fun f hf => ?_⟩, hb' _, hget⟩
        have hf' : (if b.clearing then none else some e) = some f := Except.ok.inj hf
        split at hf'
        · cases hf'
        · cases hf'
          exact hanswers.stands e rfl

/-- Giving a key up ends the waiting for it. -/
theorem Right.release (hb : b.Right R K h fun j => waiting j ∨ j = k) (hK : h.Region K)
    (hc : Cache.Holds id (.exact R L) K h c) (now : Instant) :
    (Buffer.release Cache.ops now h k b c).1.Right R K h waiting ∧
      Cache.Holds id (.exact R L) K h (Buffer.release Cache.ops now h k b c).2 := by
  rw [Buffer.release]
  split
  · obtain ⟨-, -, hremove⟩ := (Cache.faithful id).remove now k hK hc
    refine ⟨⟨hb.pending, fun j hj => ?_⟩, (Cache.faithful id).mono (Contents.drop_le _ k) hremove⟩
    obtain ⟨hmissed, hjk⟩ := List.mem_filter.1 hj
    have hne : j ≠ k := by simpa using hjk
    exact (hb.missed j hmissed).imp_right (Or.imp_right fun hw => hw.resolve_right hne)
  · rename_i hk
    refine ⟨⟨hb.pending, fun j hj => ?_⟩, hc⟩
    have hne : j ≠ k := fun he => hk (he ▸ hj)
    exact (hb.missed j hj).imp_right (Or.imp_right fun hw => hw.resolve_right hne)

/-- What a commit writes is right rows and the absence of lost keys. -/
theorem Right.writes (hb : b.Right R K h fun _ => False) (L : Key → Prop) :
    ∀ w ∈ b.writes, ∃ c, c ≠ .loading ∧ Contents.exact R (b.lostAfter L) w.1 c ∧
      w.2.Stands false K h c := by
  intro w hw
  rcases List.mem_append.1 hw with hw | hw
  · have hget : b.pending.get? w.1 = some w.2 := (Table.find_eq_some_iff b.pending.nodup).2 hw
    obtain ⟨fs, hfs, hstands⟩ := hb.pending _ _ hget
    refine ⟨.rows fs, (by simp), .inr ⟨?_, fs, hfs, rfl⟩, hstands⟩
    rintro (hloses | hkept)
    · have hnone := hloses.2.2
      rw [hget] at hnone
      cases hnone
    · exact hkept.1 (.inr (by rw [hget]; rfl))
  · obtain ⟨k, hk, rfl⟩ := List.mem_map.1 hw
    obtain ⟨hmissed, hnot⟩ := List.mem_filter.1 hk
    have hnone : b.pending.get? k = none := by simpa [Table.contains] using hnot
    have hclearing : b.clearing := by
      have hor := hb.missed k hmissed
      simpa [hnone] using hor
    exact ⟨.absence, (by simp), .inl ⟨.inl ⟨hmissed, hclearing, hnone⟩, rfl⟩, .absence⟩

/-- A commit leaves right rows in the cache, and the absence of the keys that are lost then. -/
theorem Right.commit (hb : b.Right R K h fun _ => False) (hK : h.Region K)
    (hc : Cache.Holds id (.exact R L) K h c) (now : Instant) :
    Cache.Holds id (.exact R (b.lostAfter L)) K h (Buffer.commit Cache.ops now h b c).2.2 := by
  rw [Buffer.commit]
  dsimp only
  by_cases hclearing : b.clearing = true
  · rw [if_pos hclearing]
    exact storeAll_holds (Cache.faithful id) hK (hb.writes L) (fun _ _ hm => hm.elim) (now + 1)
      ((Cache.faithful id).clear now hc)
  · rw [if_neg hclearing]
    refine storeAll_holds (Cache.faithful id) hK (hb.writes L) (fun k d hd => ?_) (now + 1) hc
    cases hk : b.pending.get? k with
    | some e =>
      have hmem := (Table.find_eq_some_iff b.pending.nodup).1 hk
      exact .inr (List.mem_map.2 ⟨(k, e), List.mem_append_left _ hmem, rfl⟩)
    | none =>
      have hlost : b.lostAfter L k ↔ L k := by
        simp [lostAfter, Loses, Replaces, hclearing, hk]
      rw [Contents.exact, hlost]
      exact .inl hd

end Buffer

/-- Every cache of the pool has its name and holds right rows, or an absence for the keys that were
lost for it. -/
def Pool.Right (ids : CacheRef → String) (R : Key → List Frozen → Prop)
    (L : CacheRef → Key → Prop) (K : ObjId → Prop) (h : Heap) (p : Pool) : Prop :=
  ∀ r, Cache.Holds (ids r) (.exact R (L r)) K h (p.get r)

section Pool

variable {ids : CacheRef → String} {L : CacheRef → Key → Prop} {p : Pool}

theorem Pool.Right.idOf (hp : p.Right ids R L K h) (r : CacheRef) : p.idOf r = ids r :=
  (hp r).id_eq

theorem Pool.Right.mono {S : Key → List Frozen → Prop} (hRS : ∀ k fs, R k fs → S k fs)
    (hp : p.Right ids R L K h) : p.Right ids S L K h := fun r =>
  (Cache.faithful (ids r)).mono (Contents.exact_mono hRS) (hp r)

theorem Pool.Right.of_agreeOn (hK : h.Region K) (hh : Heap.AgreeOn K h h')
    (hKK' : ∀ o, K o → K' o) (hp : p.Right ids R L K h) : p.Right ids R L K' h' := fun r =>
  (hp r).of_agreeOn hK hh hKK'

theorem Pool.Right.set (hp : p.Right ids R L K h) {r : CacheRef} {M : Key → Prop} {c : Cache}
    (hc : Cache.Holds (ids r) (.exact R M) K h c) :
    (p.set r c).Right ids R (Function.update L r M) K h := by
  intro q
  by_cases hq : q = r
  · subst hq
    rw [Pool.get_set_self, Function.update_self]
    exact hc
  · rw [Pool.get_set_of_ne p c hq, Function.update_of_ne hq]
    exact hp q

theorem Pool.Right.set_same (hp : p.Right ids R L K h) {r : CacheRef} {c : Cache}
    (hc : Cache.Holds (ids r) (.exact R (L r)) K h c) : (p.set r c).Right ids R L K h := by
  have hset := hp.set hc
  rwa [Function.update_eq_self] at hset

end Pool

theorem Pool.get_set_eq (p : Pool) (r : CacheRef) (x : Cache) :
    (p.set r x).get = Function.update p.get r x := by
  funext q
  by_cases hq : q = r
  · rw [hq, get_set_self, Function.update_self]
  · rw [get_set_of_ne _ _ hq, Function.update_of_ne hq]

namespace Buffers

/-- Every buffer is right, where keys may be waiting in front of the caches of some names, and kept
under the name of its cache. -/
def Right (ids : CacheRef → String) (R : Key → List Frozen → Prop) (K : ObjId → Prop) (h : Heap)
    (waiting : String → Key → Prop) (bs : Buffers) : Prop :=
  ∀ id r b, bs.byId.get? id = some (r, b) → ids r = id ∧ b.Right R K h (waiting id)

/-- No key is waiting. -/
abbrev Settled (ids : CacheRef → String) (R : Key → List Frozen → Prop) (K : ObjId → Prop)
    (h : Heap) (bs : Buffers) : Prop := bs.Right ids R K h fun _ _ => False

/-- The cache that a session uses where it is told to use another of the same name. -/
def target (bs : Buffers) (p : Pool) (r : CacheRef) : CacheRef := (bs.find p r).1

theorem target_clear (bs : Buffers) (p : Pool) (r : CacheRef) :
    (bs.clear r p).target p r = bs.target p r := by
  simp [target, clear, keep, find]

/-- The buffer in front of a cache, or an empty one. -/
def inFront (es : List (String × CacheRef × Buffer)) (r : CacheRef) : Buffer :=
  ((es.find? fun e => e.2.1 = r).map (·.2.2)).getD .empty

/-- Every buffer is kept under the name of its cache. -/
def Placed (ids : CacheRef → String) (bs : Buffers) : Prop :=
  ∀ id r b, bs.byId.get? id = some (r, b) → ids r = id

/-- Names differ, so the caches do. -/
theorem Placed.nodup {ids : CacheRef → String} {bs : Buffers} (hbs : bs.Placed ids) :
    (bs.byId.entries.map (·.2.1)).Nodup := by
  have hids : (bs.byId.entries.map (·.2.1)).map ids = bs.byId.entries.map Prod.fst := by
    rw [List.map_map]
    refine List.map_congr_left fun e he => ?_
    exact hbs e.1 e.2.1 e.2.2 ((Table.find_eq_some_iff bs.byId.nodup).2 he)
  have hnodup : ((bs.byId.entries.map (·.2.1)).map ids).Nodup := by
    rw [hids]
    exact bs.byId.nodup
  exact List.Pairwise.of_map ids (fun _ _ hne he => hne (congrArg ids he)) hnodup

/-- The lost keys of each cache after a commit. -/
def lostAfter (bs : Buffers) (L : CacheRef → Key → Prop) (r : CacheRef) : Key → Prop :=
  (inFront bs.byId.entries r).lostAfter (L r)

theorem inFront_cons_self (id : String) (r : CacheRef) (b : Buffer)
    (es : List (String × CacheRef × Buffer)) : inFront ((id, r, b) :: es) r = b := by
  simp [inFront]

theorem inFront_cons_of_ne {e : String × CacheRef × Buffer} {r : CacheRef} (hr : e.2.1 ≠ r)
    (es : List (String × CacheRef × Buffer)) : inFront (e :: es) r = inFront es r := by
  simp [inFront, hr]

theorem inFront_of_not_mem {es : List (String × CacheRef × Buffer)} {r : CacheRef}
    (hr : r ∉ es.map (·.2.1)) : inFront es r = .empty := by
  have hnone : (es.find? fun e => e.2.1 = r) = none := by
    rw [List.find?_eq_none]
    intro e he her
    exact hr (List.mem_map.2 ⟨e, he, by simpa using her⟩)
  rw [inFront, hnone]
  rfl

theorem inFront_of_mem {es : List (String × CacheRef × Buffer)} (hes : (es.map (·.2.1)).Nodup)
    {e : String × CacheRef × Buffer} (he : e ∈ es) : inFront es e.2.1 = e.2.2 := by
  induction es with
  | nil => cases he
  | cons f es ih =>
    obtain ⟨hf, hes'⟩ := List.nodup_cons.1 hes
    rcases List.mem_cons.1 he with rfl | he
    · exact inFront_cons_self _ _ _ es
    · have hne : f.2.1 ≠ e.2.1 := fun heq => hf (List.mem_map.2 ⟨e, he, heq.symm⟩)
      rw [inFront_cons_of_ne hne]
      exact ih hes' he

theorem lostAfter_empty (L : CacheRef → Key → Prop) : empty.lostAfter L = L :=
  funext fun r => Buffer.lostAfter_empty (L r)

/-- The buffer in front of a cache of some name. -/
def front (bs : Buffers) (id : String) (r : CacheRef) : Buffer :=
  match bs.byId.get? id with
  | some (q, b) => if q = r then b else .empty
  | none => .empty

variable {ids : CacheRef → String} {L : CacheRef → Key → Prop} {p : Pool} {bs bs' : Buffers}
  {waiting waiting' : String → Key → Prop}

/-- A buffer in front of a cache is found under the name of the cache. -/
theorem inFront_eq_front (hbs : bs.Placed ids) (r : CacheRef) :
    inFront bs.byId.entries r = bs.front (ids r) r := by
  have hmem : ∀ e ∈ bs.byId.entries, bs.byId.get? e.1 = some e.2 := fun e he =>
    (Table.find_eq_some_iff bs.byId.nodup).2 he
  by_cases hr : r ∈ bs.byId.entries.map (·.2.1)
  · obtain ⟨e, he, rfl⟩ := List.mem_map.1 hr
    rw [inFront_of_mem hbs.nodup he, front, hbs _ _ _ (hmem e he), hmem e he]
    exact (if_pos rfl).symm
  · rw [inFront_of_not_mem hr, front]
    cases hb : bs.byId.get? (ids r) with
    | none => rfl
    | some e =>
      have he : e.1 ≠ r := by
        intro heq
        have hm := (Table.find_eq_some_iff bs.byId.nodup).1 hb
        exact hr (List.mem_map.2 ⟨_, hm, heq⟩)
      exact (if_neg he).symm

section Reordered

variable (hr : bs.Reordered bs')

include hr

theorem Reordered.front (id : String) (r : CacheRef) :
    (bs.front id r).Reordered (bs'.front id r) := by
  have hid := hr id
  rw [Buffers.front, Buffers.front]
  generalize bs.byId.get? id = x at hid ⊢
  generalize bs'.byId.get? id = y at hid ⊢
  cases hid with
  | none => exact .refl _
  | @some x y h =>
    obtain ⟨q, b⟩ := x
    obtain ⟨q', b'⟩ := y
    obtain ⟨rfl, hb⟩ := h
    dsimp only
    split
    · exact hb
    · exact .refl _

theorem Placed.of_reordered (hbs : bs.Placed ids) : bs'.Placed ids := by
  intro id r b' hb'
  obtain ⟨b, hb, -⟩ := hr.of_get? hb'
  exact hbs id r b hb

/-- The buffer in front of each cache is the same in some order. -/
theorem Placed.reordered_inFront (hbs : bs.Placed ids) (r : CacheRef) :
    (inFront bs.byId.entries r).Reordered (inFront bs'.byId.entries r) := by
  rw [inFront_eq_front hbs, inFront_eq_front (hbs.of_reordered hr)]
  exact hr.front (ids r) r

theorem Placed.lostAfter_of_reordered (hbs : bs.Placed ids) (L : CacheRef → Key → Prop) :
    bs'.lostAfter L = bs.lostAfter L :=
  funext fun r => Buffer.lostAfter_of_reordered (hbs.reordered_inFront hr r) (L r)

theorem Right.of_reordered (hbs : bs.Right ids R K h waiting) : bs'.Right ids R K h waiting := by
  intro id r b' hb'
  obtain ⟨b, hb, hbb'⟩ := hr.of_get? hb'
  exact (hbs id r b hb).imp_right fun hright => hright.of_reordered hbb'

end Reordered

theorem right_empty : empty.Right ids R K h waiting := fun _ _ _ hb => by cases hb

theorem Right.mono {S : Key → List Frozen → Prop} (hRS : ∀ k fs, R k fs → S k fs)
    (hbs : bs.Right ids R K h waiting) : bs.Right ids S K h waiting :=
  fun id r b hb => (hbs id r b hb).imp_right (.mono hRS)

theorem Right.of_agreeOn (hK : h.Region K) (hh : Heap.AgreeOn K h h') (hKK' : ∀ o, K o → K' o)
    (hbs : bs.Right ids R K h waiting) : bs.Right ids R K' h' waiting :=
  fun id r b hb => (hbs id r b hb).imp_right (.of_agreeOn hK hh hKK')

theorem Right.wait (hw : ∀ id k, waiting id k → waiting' id k)
    (hbs : bs.Right ids R K h waiting) : bs.Right ids R K h waiting' :=
  fun id r b hb => (hbs id r b hb).imp_right (.wait (hw id))

theorem Right.find (hbs : bs.Right ids R K h waiting) (hp : p.Right ids R L K h) (r : CacheRef) :
    ids (bs.find p r).1 = ids r ∧ (bs.find p r).2.Right R K h (waiting (ids r)) := by
  rw [Buffers.find, hp.idOf r]
  cases hb : bs.byId.get? (ids r) with
  | none => exact ⟨rfl, Buffer.right_empty⟩
  | some rb => exact hbs _ rb.1 rb.2 hb

theorem Right.keep (hbs : bs.Right ids R K h waiting) (hp : p.Right ids R L K h)
    {r target : CacheRef} (htarget : ids target = ids r) {b : Buffer}
    (hb : b.Right R K h (waiting' (ids r)))
    (hw : ∀ id k, id ≠ ids r → waiting id k → waiting' id k) :
    (bs.keep p r target b).Right ids R K h waiting' := by
  intro id q c hc
  have hc' : (bs.byId.insert (p.idOf r) (target, b)).get? id = some (q, c) := hc
  rw [hp.idOf r] at hc'
  by_cases hid : id = ids r
  · subst hid
    rw [Table.get?_insert_self] at hc'
    cases hc'
    exact ⟨htarget, hb⟩
  · rw [Table.get?_insert_of_ne _ _ hid] at hc'
    exact (hbs id q c hc').imp_right (.wait fun k => hw id k hid)

/-- While one key waits in front of the caches of one name. -/
def waitingFor (id : String) (k : Key) (id' : String) (j : Key) : Prop := id' = id ∧ j = k

/-- A read answers right rows or a lost absence. If it finds nothing, the key is waiting. -/
theorem Right.get (hbs : bs.Settled ids R K h) (hp : p.Right ids R L K h) (hK : h.Region K)
    (now : Instant) (r : CacheRef) (k : Key) :
    Answers false (.right R (L (bs.target p r))) K h k (bs.get now h r k p).1
        (bs.get now h r k p).2.1 ∧
      (bs.get now h r k p).2.2.1.Right ids R K h
        (fun id j => (bs.get now h r k p).1 = .ok none ∧ waitingFor (ids r) k id j) ∧
      (bs.get now h r k p).2.2.2.Right ids R L K h := by
  obtain ⟨htarget, hb⟩ := hbs.find hp r
  obtain ⟨hanswers, hbuffer, hcache⟩ := hb.get hK (hp (bs.target p r)) now k
  refine ⟨hanswers, hbs.keep hp htarget (hbuffer.wait fun j hj => ?_) fun _ _ _ hw => hw.elim,
    hp.set_same hcache⟩
  rcases hj with hj | hj
  · exact hj.elim
  · exact ⟨hj.1, rfl, hj.2⟩

/-- A put of right rows ends the waiting. -/
theorem Right.put {r : CacheRef} {k : Key} (hbs : bs.Right ids R K h (waitingFor (ids r) k))
    (hp : p.Right ids R L K h) {e : Entry} (he : e.Right R K h k) :
    (bs.put r k e p).Settled ids R K h := by
  obtain ⟨htarget, hb⟩ := hbs.find hp r
  have hb' : (bs.find p r).2.Right R K h fun j => False ∨ j = k := hb.wait fun j hj => .inr hj.2
  exact hbs.keep hp htarget (hb'.put he) fun id j hid hw => hid hw.1

theorem Right.clear (hbs : bs.Settled ids R K h) (hp : p.Right ids R L K h) (r : CacheRef) :
    (bs.clear r p).Settled ids R K h :=
  hbs.keep hp (hbs.find hp r).1 (Buffer.right_clear _) fun _ _ _ hw => hw

theorem Right.release {r : CacheRef} {k : Key} (hbs : bs.Right ids R K h (waitingFor (ids r) k))
    (hp : p.Right ids R L K h) (hK : h.Region K) (now : Instant) :
    (bs.release now h r k p).1.Settled ids R K h ∧
      (bs.release now h r k p).2.Right ids R L K h := by
  obtain ⟨htarget, hb⟩ := hbs.find hp r
  have hb' : (bs.find p r).2.Right R K h fun j => False ∨ j = k := hb.wait fun j hj => .inr hj.2
  obtain ⟨hbuffer, hcache⟩ := hb'.release hK (hp (bs.target p r)) now
  exact ⟨hbs.keep hp htarget hbuffer fun id j hid hw => hid hw.1, hp.set_same hcache⟩

/-- Buffers in front of different caches are committed one after the other. -/
theorem commitAll_right (hK : h.Region K) {es : List (String × CacheRef × Buffer)}
    (hes : ∀ e ∈ es, e.2.2.Right R K h fun _ => False) (hnodup : (es.map (·.2.1)).Nodup)
    (now : Instant) {p : Pool} (hp : p.Right ids R L K h) :
    (commitAll h now es p).2.Right ids R (fun r => (inFront es r).lostAfter (L r)) K h := by
  induction es generalizing now p L with
  | nil =>
    have hsame : (fun r => (inFront [] r).lostAfter (L r)) = L := lostAfter_empty L
    rw [hsame]
    exact hp
  | cons e es ih =>
    obtain ⟨id, r, b⟩ := e
    obtain ⟨hr, hnodup'⟩ := List.nodup_cons.1 hnodup
    have hcommit := (hes _ List.mem_cons_self).commit hK (hp r) now
    have hrest := ih (fun e he => hes e (List.mem_cons_of_mem _ he)) hnodup' (now + b.span)
      (hp.set hcommit)
    have hlost : (fun q => (inFront es q).lostAfter
          (Function.update L r (b.lostAfter (L r)) q)) =
        fun q => (inFront ((id, r, b) :: es) q).lostAfter (L q) := by
      funext q
      by_cases hq : q = r
      · subst hq
        rw [inFront_of_not_mem hr, Buffer.lostAfter_empty, Function.update_self,
          inFront_cons_self]
      · have hne : r ≠ q := fun he => hq he.symm
        rw [Function.update_of_ne hq, inFront_cons_of_ne hne]
    rw [hlost] at hrest
    rw [commitAll]
    dsimp only
    split <;> exact hrest

theorem rollbackAll_right (hK : h.Region K) (es : List (String × CacheRef × Buffer))
    (now : Instant) {p : Pool} (hp : p.Right ids R L K h) :
    (rollbackAll h now es p).Right ids R L K h := by
  induction es generalizing now p with
  | nil => exact hp
  | cons e es ih =>
    obtain ⟨id, r, b⟩ := e
    have hrollback := Buffer.removeAll_holds (Cache.faithful (ids r)) hK b.missed now (hp r)
    exact ih (now + b.span) (hp.set_same hrollback)

theorem Right.emptied (hbs : bs.Right ids R K h waiting) : bs.emptied.Settled ids R K h := by
  intro id r b hb
  have hm := (Table.find_eq_some_iff bs.emptied.byId.nodup).1 hb
  obtain ⟨⟨id', r', b'⟩, he, heq⟩ := List.mem_map.1 hm
  cases heq
  exact ⟨(hbs _ _ _ ((Table.find_eq_some_iff bs.byId.nodup).2 he)).1, Buffer.right_empty⟩

theorem Right.placed (hbs : bs.Right ids R K h waiting) : bs.Placed ids :=
  fun id r b hb => (hbs id r b hb).1

/-- A commit leaves right rows in the caches, and the absence of the keys that are lost then. -/
theorem Right.commit (hbs : bs.Settled ids R K h) (hp : p.Right ids R L K h) (hK : h.Region K)
    (now : Instant) :
    (bs.commit now h p).2.1.Settled ids R K h ∧
      (bs.commit now h p).2.2.Right ids R (bs.lostAfter L) K h := by
  have hes : ∀ e ∈ bs.byId.entries, e.2.2.Right R K h fun _ => False := fun e he =>
    (hbs e.1 e.2.1 e.2.2 ((Table.find_eq_some_iff bs.byId.nodup).2 he)).2
  exact ⟨hbs.emptied, commitAll_right hK hes hbs.placed.nodup now hp⟩

theorem Right.rollback (hbs : bs.Settled ids R K h) (hp : p.Right ids R L K h) (hK : h.Region K)
    (now : Instant) :
    (bs.rollback now h p).1.Settled ids R K h ∧ (bs.rollback now h p).2.Right ids R L K h :=
  ⟨hbs.emptied, rollbackAll_right hK bs.byId.entries now hp⟩

end Buffers

end ResultCache
