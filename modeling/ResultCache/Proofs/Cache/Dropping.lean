import Mathlib.Data.Finset.Card
import ResultCache.Proofs.Cache.LeastRecent

/-!
# What a layer of recently used keys drops

A put through a bounding layer may cost another key its entry (`Stack.Drops`). That is meant to
happen only when the store is full without the key that is put. The layer counts the keys of its
index, though, and a removal by hand takes the entry of a key away and leaves the key in the index.
So the places of a full index are taken by entries and by keys that were removed and not put since
(`CacheCall.Withdrawn`), and a put that drops an entry finds both together as many as the bound
(`recency_drops_when_full`): it comes too early by one place for every such key.
`recency_drops_early` is a run in which half of the bound is in use.

What carries the proof is `Recency.Indexed`: the index lists every key with an entry, no key twice,
and what it lists besides was removed by hand.
-/
namespace ResultCache

/-- The key was removed by hand; since then it was not put and nothing was cleared. -/
def CacheCall.Withdrawn (k : Key) : List CacheCall → Prop
  | [] => False
  | .put _ _ j _ :: past => j ≠ k ∧ Withdrawn k past
  | .remove _ _ j :: past => j = k ∨ Withdrawn k past
  | .clear _ :: _ => False
  | .get .. :: past => Withdrawn k past
  | .size _ :: past => Withdrawn k past

namespace Store

variable {s : Store} {k j : Key}

/-- There is an entry for the key. -/
def holds (s : Store) (k : Key) : Bool := s.entries.contains k

/-- How many other keys have an entry. -/
def others (s : Store) (k : Key) : Nat := (s.entries.erase k).size

/-- Any set of the other keys with an entry counts them. -/
theorem others_eq_card {ks : Finset Key} (hks : ∀ j, j ∈ ks ↔ j ≠ k ∧ s.holds j = true) :
    s.others k = ks.card := by
  have hset : (s.entries.erase k).keys.toFinset = ks := by
    ext j
    rw [List.mem_toFinset, Table.mem_keys_iff, hks]
    exact Table.contains_erase s.entries k j
  have hnodup : (s.entries.erase k).keys.Nodup := (s.entries.erase k).nodup
  rw [← hset, List.toFinset_card_of_nodup hnodup]
  simp [others, Table.size, Table.keys]

end Store

/-- The call costs a key its entry. -/
def Stack.Drops {ls : List Layer} (s : Stack ls) (c : CacheCall) (k : Key) : Prop :=
  s.store.holds k = true ∧ (c.run (stackOps ls) s).2.store.holds k = false

instance {ls : List Layer} (s : Stack ls) (c : CacheCall) (k : Key) : Decidable (s.Drops c k) :=
  inferInstanceAs (Decidable (_ ∧ _))

namespace Recency

variable {r : Recency} {k j : Key}

theorem nodup_touch (hr : r.index.Nodup) : (r.touch k).index.Nodup := by
  rw [touch]
  split
  · exact List.nodup_cons.2 ⟨by simp, hr.filter _⟩
  · exact hr

theorem nodup_push (hr : r.index.Nodup) : (r.push k).2.index.Nodup := by
  rw [push]
  split
  · exact nodup_touch hr
  · rename_i hk
    split
    · exact List.nodup_cons.2 ⟨hk, hr⟩
    · apply List.nodup_cons.2
      constructor
      · exact fun hmem => hk (List.mem_of_mem_dropLast hmem)
      · exact hr.sublist (List.dropLast_sublist _)

/-- A key falls out of a full index that does not list the key that comes. -/
theorem push_eq_some_iff :
    (r.push k).1 = some j ↔
      k ∉ r.index ∧ r.capacity ≤ r.index.length ∧ r.index.getLast? = some j := by
  rw [push]
  by_cases hk : k ∈ r.index
  · simp [hk]
  · by_cases hroom : r.index.length < r.capacity
    · simp [hk, hroom, Nat.not_le.2 hroom]
    · simp [hk, hroom, Nat.not_lt.1 hroom]

theorem mem_of_mem_push (hj : j ∈ (r.push k).2.index) : j = k ∨ j ∈ r.index := by
  rw [push] at hj
  split at hj
  · exact .inr (mem_touch.1 hj)
  · split at hj
    · exact List.mem_cons.1 hj
    · exact (List.mem_cons.1 hj).imp_right List.mem_of_mem_dropLast

/-- The key that falls out is not listed any more. -/
theorem notMem_push (hr : r.index.Nodup) (hout : (r.push k).1 = some j) :
    j ∉ (r.push k).2.index := by
  obtain ⟨hk, hfull, hlast⟩ := push_eq_some_iff.1 hout
  obtain ⟨init, hinit⟩ := List.getLast?_eq_some_iff.1 hlast
  have hjk : j ≠ k := fun he => hk (he ▸ List.mem_of_getLast? hlast)
  have hinitial : j ∉ init := by
    rw [hinit, List.nodup_append] at hr
    exact fun hmem => hr.2.2 j hmem j (by simp) rfl
  rw [push, if_neg hk, if_neg (Nat.not_lt.2 hfull), hinit, List.dropLast_concat]
  simp [hjk, hinitial]

variable {s : Recency × Store}

/-- After a put the key has an entry and so has what had one before, but for the key that falls
out. -/
theorem holds_put (hs : s.2.refused = []) (now : Instant) (h : Heap) (k : Key) (e : Entry)
    (j : Key) :
    (put Store.ops now h k e s).2.2.holds j = true ↔
      (j = k ∨ s.2.holds j = true) ∧ (s.1.push k).1 ≠ some j := by
  have hinsert := Table.contains_insert s.2.entries k e j
  rw [PairList.Mirrors.put_eq hs]
  cases (s.1.push k).1 with
  | none =>
    change (s.2.entries.insert k e).contains j = true ↔ _
    rw [hinsert]
    simp [Store.holds]
  | some eldest =>
    change ((s.2.entries.insert k e).erase eldest).contains j = true ↔ _
    rw [Table.contains_erase, hinsert, and_comm, ne_comm]
    simp [Store.holds]

/-- What a put drops is the key that falls out. -/
theorem drops_put_iff (hs : s.2.refused = []) (now : Instant) (h : Heap) (k : Key) (e : Entry)
    (j : Key) :
    @Stack.Drops [.recency] s (.put now h k e) j ↔
      s.2.holds j = true ∧ (s.1.push k).1 = some j := by
  change s.2.holds j = true ∧ (put Store.ops now h k e s).2.2.holds j = false ↔ _
  rw [← Bool.not_eq_true, holds_put hs]
  tauto

/-- The index lists no key twice, and every key with an entry; what it lists besides was removed by
hand. -/
structure Indexed (n : Nat) (past : List CacheCall) (s : Recency × Store) : Prop where
  capacity : s.1.capacity = n
  length_le : s.1.index.length ≤ n
  nodup : s.1.index.Nodup
  refused : s.2.refused = []
  listed : ∀ k, s.2.holds k = true → k ∈ s.1.index
  withdrawn : ∀ k ∈ s.1.index, s.2.holds k = true ∨ CacheCall.Withdrawn k past

namespace Indexed

variable {n : Nat} {past : List CacheCall}

theorem put (hs : Indexed n past s) (now : Instant) (h : Heap) (k : Key) (e : Entry) :
    Indexed n (.put now h k e :: past) (Recency.put Store.ops now h k e s).2 := by
  have hheld := holds_put hs.refused now h k e
  have hput := PairList.Mirrors.put_eq hs.refused now h k e
  have hindex : (Recency.put Store.ops now h k e s).2.1 = (s.1.push k).2 := by rw [hput]
  constructor
  · rw [hindex, capacity_push]
    exact hs.capacity
  · obtain rfl := hs.capacity
    rw [hindex]
    exact length_push hs.length_le
  · rw [hindex]
    exact nodup_push hs.nodup
  · rw [hput]
    exact hs.refused
  · intro j hj
    obtain ⟨hj, hout⟩ := (hheld j).1 hj
    rw [hindex]
    rcases hj with rfl | hj
    · exact mem_push_self _ _
    · exact (mem_push_or_evicted (hs.listed j hj)).resolve_right hout
  · intro j hj
    rw [hindex] at hj
    have hstays : (s.1.push k).1 ≠ some j := fun hout => notMem_push hs.nodup hout hj
    by_cases hjk : j = k
    · exact .inl ((hheld j).2 ⟨.inl hjk, hstays⟩)
    · rcases hs.withdrawn j ((mem_of_mem_push hj).resolve_left hjk) with hentry | hgone
      · exact .inl ((hheld j).2 ⟨.inr hentry, hstays⟩)
      · exact .inr ⟨Ne.symm hjk, hgone⟩

theorem touch (hs : Indexed n past s) (now : Instant) (h : Heap) (k : Key) :
    Indexed n (.get now h k :: past) (s.1.touch k, s.2) where
  capacity := (capacity_touch s.1 k).trans hs.capacity
  length_le := Nat.le_trans (length_touch s.1 k) hs.length_le
  nodup := nodup_touch hs.nodup
  refused := hs.refused
  listed j hj := mem_touch.2 (hs.listed j hj)
  withdrawn j hj := hs.withdrawn j (mem_touch.1 hj)

/-- A removal leaves the index as it is. -/
theorem remove (hs : Indexed n past s) (now : Instant) (h : Heap) (k : Key) :
    Indexed n (.remove now h k :: past) (s.1, (s.2.remove k).2) := by
  have hopen : s.2.Open false := ⟨hs.refused, fun he => by cases he⟩
  rw [Store.remove_open hopen]
  constructor
  · exact hs.capacity
  · exact hs.length_le
  · exact hs.nodup
  · exact hs.refused
  · exact fun j hj => hs.listed j ((Table.contains_erase _ _ _).1 hj).2
  · intro j hj
    by_cases hjk : j = k
    · exact .inr (.inl hjk.symm)
    · exact (hs.withdrawn j hj).imp
        (fun hentry => (Table.contains_erase _ _ _).2 ⟨hjk, hentry⟩) .inr

theorem clear (hs : Indexed n past s) (now : Instant) :
    Indexed n (.clear now :: past) (s.1.forget, s.2.clear) := by
  constructor
  · exact hs.capacity
  · exact Nat.zero_le n
  · exact .nil
  · exact hs.refused
  · exact fun j hj => by cases hj
  · exact fun j hj => by cases hj

end Indexed

/-- The index of a new layer is in order after any calls. -/
theorem indexed_after {n : Nat} (hn : 0 < n) (id : String) (past : List CacheCall) :
    Indexed n past
      (CacheCall.after (stackOps [.recency]) (ofCapacity n hn, Store.perpetual id) past) := by
  induction past with
  | nil =>
    constructor
    · rfl
    · exact Nat.zero_le n
    · exact .nil
    · rfl
    · exact fun j hj => by cases hj
    · exact fun j hj => by cases hj
  | cons c past ih =>
    cases c with
    | put now h k e => exact ih.put now h k e
    | get now h k => exact ih.touch now h k
    | remove now h k => exact ih.remove now h k
    | clear now => exact ih.clear now
    | size now => exact ⟨ih.capacity, ih.length_le, ih.nodup, ih.refused, ih.listed, ih.withdrawn⟩

/-- A full index without a key: its places are those of the other entries and of keys that were
removed by hand. -/
theorem Indexed.places {n : Nat} {past : List CacheCall} (hs : Indexed n past s)
    (hk : k ∉ s.1.index) (hfull : n ≤ s.1.index.length) :
    ∃ gone : Finset Key, s.2.others k + gone.card = n ∧
      ∀ g ∈ gone, g ≠ k ∧ CacheCall.Withdrawn g past := by
  let held := s.1.index.toFinset.filter fun j => s.2.holds j = true
  let gone := s.1.index.toFinset.filter fun j => ¬ s.2.holds j = true
  have hheld : ∀ j, j ∈ held ↔ j ≠ k ∧ s.2.holds j = true := by
    intro j
    simp only [held, Finset.mem_filter, List.mem_toFinset]
    constructor
    · exact fun ⟨hmem, hj⟩ => ⟨fun he => hk (he ▸ hmem), hj⟩
    · exact fun ⟨_, hj⟩ => ⟨hs.listed j hj, hj⟩
  refine ⟨gone, ?_, fun g hg => ?_⟩
  · calc s.2.others k + gone.card = held.card + gone.card := by rw [Store.others_eq_card hheld]
      _ = s.1.index.toFinset.card := Finset.card_filter_add_card_filter_not _
      _ = s.1.index.length := List.toFinset_card_of_nodup hs.nodup
      _ = n := Nat.le_antisymm hs.length_le hfull
  · simp only [gone, Finset.mem_filter, List.mem_toFinset] at hg
    exact ⟨fun he => hk (he ▸ hg.1), (hs.withdrawn g hg.1).resolve_left hg.2⟩

end Recency

/-- A put through a layer of recently used keys drops an entry exactly if the index is full without
the key and it is the entry of the key used least recently. Then the other entries and the keys that
were removed by hand and not put since are together as many as the bound. -/
theorem recency_drops_when_full (id : String) {n : Nat} (hn : 0 < n) (past : List CacheCall)
    (now : Instant) (h : Heap) (k : Key) (e : Entry) (j : Key) :
    let s : Stack [.recency] :=
      CacheCall.after (stackOps _) (Recency.ofCapacity n hn, Store.perpetual id) past
    (s.Drops (.put now h k e) j ↔ s.store.holds j = true ∧ k ∉ s.1.index ∧
      s.1.index.length = n ∧ s.1.index.getLast? = some j) ∧
    (s.Drops (.put now h k e) j → ∃ gone : Finset Key, s.store.others k + gone.card = n ∧
      ∀ g ∈ gone, g ≠ k ∧ CacheCall.Withdrawn g past) := by
  intro s
  have hs : Recency.Indexed n past s := Recency.indexed_after hn id past
  have hdrops := Recency.drops_put_iff hs.refused now h k e j
  rw [Recency.push_eq_some_iff, hs.capacity] at hdrops
  constructor
  · have hfull : n ≤ (Prod.fst s).index.length ↔ (Prod.fst s).index.length = n :=
      hs.length_le.ge_iff_eq
    rw [← hfull]
    exact hdrops
  · intro hdrop
    obtain ⟨-, hk, hfull, -⟩ := hdrops.1 hdrop
    exact hs.places hk hfull

/-- Two keys are put and the second one is removed, the latest call first. -/
def vacated : List CacheCall :=
  [.remove 2 .empty (numberedKey 2), .put 1 .empty (numberedKey 2) .absence,
    .put 0 .empty (numberedKey 1) .absence]

/-- In a layer for two keys the third one drops the first, and one place was that of the second. -/
theorem recency_drops_when_full_vacated :
    let s : Stack [.recency] := CacheCall.after (stackOps _)
      (Recency.ofCapacity 2 Nat.two_pos, Store.perpetual "b") vacated
    0 < 2 ∧ s.Drops (.put 3 .empty (numberedKey 3) .absence) (numberedKey 1) ∧
      ∃ gone : Finset Key, gone.card = 1 ∧ ∀ g ∈ gone, CacheCall.Withdrawn g vacated := by
  intro s
  have hdrops : s.Drops (.put 3 .empty (numberedKey 3) .absence) (numberedKey 1) := by
    decide +kernel
  have hothers : s.store.others (numberedKey 3) = 1 := by decide +kernel
  obtain ⟨gone, hcard, hgone⟩ :=
    (recency_drops_when_full "b" Nat.two_pos vacated 3 .empty (numberedKey 3) .absence
      (numberedKey 1)).2 hdrops
  refine ⟨Nat.two_pos, hdrops, gone, ?_, fun g hg => (hgone g hg).2⟩
  change s.store.others (numberedKey 3) + gone.card = 2 at hcard
  omega

/-- So the first key loses its entry though the store held only that one. -/
theorem recency_drops_early :
    ¬ ∀ (id : String) {n : Nat} (hn : 0 < n) (past : List CacheCall) (now : Instant) (h : Heap)
      (k : Key) (e : Entry) (j : Key),
      let s : Stack [.recency] :=
        CacheCall.after (stackOps _) (Recency.ofCapacity n hn, Store.perpetual id) past
      s.Drops (.put now h k e) j → s.store.others k = n := by
  intro hfull
  have hothers := hfull "b" Nat.two_pos vacated 3 .empty (numberedKey 3) .absence (numberedKey 1)
    (by decide +kernel)
  exact absurd hothers (by decide +kernel)

end ResultCache
