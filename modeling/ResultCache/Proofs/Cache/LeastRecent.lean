import ResultCache.Proofs.Cache.Bounds
import ResultCache.Proofs.Table

/-!
# Least recently used

A layer of recently used keys keeps its keys apart from the entries: the entry is stored below, then
its key joins the index, and a key that falls out of the index loses its entry. What the layer is
meant to do is said with one list of pairs, the most recently used first (`PairList`): a put takes
its key to the front and cuts the list to the bound, a get takes a key that it finds to the front.
Over a perpetual store that was empty the two answer alike, as long as nothing is removed by hand
(`recency_answers`): a removal would leave the key in the index.

What carries the proof is `Mirrors`: the index lists the keys of the pairs in their order, and the
store answers as the list does.
-/
namespace ResultCache

/-- What is done to a cache that is only filled, read, emptied and counted. -/
inductive CacheUse where
  | put (now : Instant) (h : Heap) (k : Key) (e : Entry)
  | get (now : Instant) (h : Heap) (k : Key)
  | clear (now : Instant)
  | size (now : Instant)

def CacheUse.call : CacheUse → CacheCall
  | put now h k e => .put now h k e
  | get now h k => .get now h k
  | clear now => .clear now
  | size now => .size now

/-- Keys with their entries, the most recently used first. -/
abbrev PairList := List (Key × Entry)

namespace PairList

open Table (find omitting)

/-- The key goes to the front with its new entry, and what is beyond the bound falls off. -/
def put (n : Nat) (k : Key) (e : Entry) (l : PairList) : PairList :=
  ((k, e) :: omitting k l).take n

/-- A key that is there goes to the front. -/
def get (k : Key) (l : PairList) : PairList :=
  match find k l with
  | some e => (k, e) :: omitting k l
  | none => l

/-- What a list of at most so many pairs answers, and what becomes of it. -/
def use (n : Nat) : CacheUse → PairList → CacheCall.Answer × PairList
  | .put _ _ k e, l => (.stored (.ok ()), put n k e l)
  | .get _ h k, l => (.found (.ok (find k l)) h, get k l)
  | .clear _, _ => (.cleared, [])
  | .size _, l => (.counted l.length, l)

/-- The list after some uses, the latest first, of one that was empty. -/
def after (n : Nat) : List CacheUse → PairList
  | [] => []
  | u :: past => (use n u (after n past)).2

def answers (n : Nat) : List CacheUse → List CacheCall.Answer
  | [] => []
  | u :: past => (use n u (after n past)).1 :: answers n past

variable {n : Nat} {k j : Key} {e : Entry} {l : PairList}

theorem map_omitting (k : Key) (l : PairList) :
    (omitting k l).map (·.1) = (l.map (·.1)).filter (· ≠ k) := by
  simp only [omitting, List.filter_map]
  rfl

theorem omitting_of_notMem (hk : k ∉ l.map (·.1)) : omitting k l = l := by
  refine List.filter_eq_self.2 fun p hp => ?_
  have hne : p.1 ≠ k := fun he => hk (he ▸ List.mem_map_of_mem hp)
  simpa using hne

theorem length_omitting_lt (hk : k ∈ l.map (·.1)) : (omitting k l).length < l.length := by
  obtain ⟨p, hp, rfl⟩ := List.mem_map.1 hk
  exact List.length_filter_lt_length_iff_exists.2 ⟨p, hp, by simp⟩

/-- A new pair at the front answers for its key and leaves the others alone. -/
theorem find_cons_omitting (k : Key) (e : Entry) (l : PairList) (j : Key) :
    find j ((k, e) :: omitting k l) = if j = k then some e else find j l := by
  rw [Table.find]
  by_cases hj : j = k
  · simp [hj]
  · rw [if_neg (Ne.symm hj), if_neg hj, Table.find_omitting_of_ne _ hj]

/-- While there is room, or the key was there, no pair falls off. -/
theorem put_of_room (hl : l.length ≤ n) (hroom : k ∈ l.map (·.1) ∨ l.length < n) :
    put n k e l = (k, e) :: omitting k l := by
  refine List.take_of_length_le ?_
  rw [List.length_cons]
  rcases hroom with hk | hlt
  · have := length_omitting_lt hk
    omega
  · have : (omitting k l).length ≤ l.length := List.length_filter_le _ _
    omega

/-- From a full list a new key drives out the last pair. -/
theorem put_of_full (hk : k ∉ l.map (·.1)) (hlen : l.length = n) (hn : 0 < n) :
    put n k e l = (k, e) :: l.dropLast := by
  obtain ⟨m, rfl⟩ : ∃ m, n = m + 1 := ⟨n - 1, by omega⟩
  rw [put, omitting_of_notMem hk, List.take_succ_cons, List.dropLast_eq_take, hlen]
  rfl

theorem find_dropLast {eldest : Key} {x : Entry} {init : PairList}
    (hl : ((init ++ [(eldest, x)]).map (·.1)).Nodup) (j : Key) :
    find j init = if j = eldest then none else find j (init ++ [(eldest, x)]) := by
  by_cases hj : j = eldest
  · subst hj
    rw [if_pos rfl, Table.find_eq_none_iff]
    rw [List.map_append, List.nodup_append] at hl
    exact fun hmem => hl.2.2 j hmem j (by simp) rfl
  · rw [if_neg hj, Table.find_append]
    simp [Table.find, Ne.symm hj]

/-- A layer of recently used keys over a store has the same pairs as a list. -/
structure Mirrors (n : Nat) (l : PairList) (s : Recency × Store) : Prop where
  index : s.1.index = l.map (·.1)
  capacity : s.1.capacity = n
  length_le : l.length ≤ n
  nodup : (l.map (·.1)).Nodup
  refused : s.2.refused = []
  get? : ∀ k, s.2.entries.get? k = find k l

namespace Mirrors

variable {s : Recency × Store}

/-- The store has as many entries as there are pairs: no key occurs twice on either side. -/
theorem size (hs : Mirrors n l s) : s.2.entries.size = l.length := by
  have hmem : ∀ k, k ∈ s.2.entries.keys ↔ k ∈ l.map (·.1) := by
    intro k
    rw [Table.mem_keys_iff, hs.get?, Table.isSome_find_iff]
  have hperm : s.2.entries.keys.Perm (l.map (·.1)) :=
    (List.perm_ext_iff_of_nodup s.2.entries.nodup hs.nodup).2 hmem
  simpa [Table.keys, Table.size] using hperm.length_eq

/-- A key of the list goes to the front, in the index and among the pairs. -/
theorem touch (hs : Mirrors n l s) : Mirrors n (PairList.get k l) (s.1.touch k, s.2) := by
  rw [PairList.get, Recency.touch, hs.index]
  cases he : find k l with
  | none => rwa [if_neg (Table.find_eq_none_iff.1 he)]
  | some e =>
    have hk : k ∈ l.map (·.1) := Table.isSome_find_iff.1 (by rw [he]; rfl)
    have hlt := length_omitting_lt hk
    have hle := hs.length_le
    rw [if_pos hk]
    constructor
    · simp [map_omitting]
    · exact hs.capacity
    · simp only [List.length_cons]
      omega
    · rw [List.map_cons, map_omitting, List.nodup_cons]
      exact ⟨by simp, hs.nodup.filter _⟩
    · exact hs.refused
    · intro j
      rw [find_cons_omitting, hs.get?]
      split
      · next hj => rw [hj, he]
      · rfl

theorem clear (hs : Mirrors n l s) : Mirrors n [] (s.1.forget, s.2.clear) :=
  ⟨rfl, hs.capacity, Nat.zero_le n, .nil, hs.refused, fun _ => rfl⟩

/-- The store with the new entry, before any key leaves. -/
theorem get?_insert (hs : Mirrors n l s) (k : Key) (e : Entry) (j : Key) :
    (s.2.entries.insert k e).get? j = find j ((k, e) :: omitting k l) := by
  rw [find_cons_omitting]
  split
  · next hj => rw [hj, Table.get?_insert_self]
  · next hj => rw [Table.get?_insert_of_ne _ _ hj, hs.get?]

/-- Over a store that refuses nothing a put returns, and the key that falls out loses its entry. -/
theorem put_eq (hs : s.2.refused = []) (now : Instant) (h : Heap) (k : Key) (e : Entry) :
    Recency.put Store.ops now h k e s = (.ok (), (s.1.push k).2,
      { s.2 with entries := (s.1.push k).1.elim (s.2.entries.insert k e) fun eldest =>
          (s.2.entries.insert k e).erase eldest }) := by
  have hput : Store.ops.put now h k e s.2 =
      (.ok (), { s.2 with entries := s.2.entries.insert k e }) := by
    simp [Store.ops, Store.put, hs]
  rw [Recency.put, hput]
  cases s.1.push k with
  | mk out r => cases out <;> simp [Store.ops, Store.remove, hs, Except.map]

/-- Where the key was there or there is room, a put only adds: nothing falls off on either side. -/
theorem put_of_room (hs : Mirrors n l s) (hroom : k ∈ l.map (·.1) ∨ l.length < n) (now : Instant)
    (h : Heap) (e : Entry) :
    Mirrors n (PairList.put n k e l) (Recency.put Store.ops now h k e s).2 := by
  have hcap := hs.capacity
  have hpush : (s.1.push k).1 = none ∧ (s.1.push k).2.index = k :: (omitting k l).map (·.1) := by
    rw [map_omitting, Recency.push, hs.index]
    by_cases hk : k ∈ l.map (·.1)
    · simp only [if_pos hk, Recency.touch, hs.index, and_self]
    · have hlt : (l.map (·.1)).length < s.1.capacity := by
        rw [List.length_map]
        exact hcap ▸ hroom.resolve_left hk
      have hall : (l.map (·.1)).filter (· ≠ k) = l.map (·.1) := by
        rw [← map_omitting, omitting_of_notMem hk]
      rw [if_neg hk, if_pos hlt, hall]
      exact ⟨rfl, rfl⟩
  rw [put_eq hs.refused, hpush.1, PairList.put_of_room hs.length_le hroom]
  constructor
  · exact hpush.2
  · exact (Recency.capacity_push s.1 k).trans hcap
  · rw [← PairList.put_of_room hs.length_le hroom]
    exact List.length_take_le n _
  · rw [List.map_cons, map_omitting, List.nodup_cons]
    exact ⟨by simp, hs.nodup.filter _⟩
  · exact hs.refused
  · exact hs.get?_insert k e

/-- From a full list a new key drives out the last pair, and the store loses the entry of its key. -/
theorem put_of_full (hs : Mirrors n l s) (hk : k ∉ l.map (·.1)) (hlen : l.length = n) (hn : 0 < n)
    (now : Instant) (h : Heap) (e : Entry) :
    Mirrors n (PairList.put n k e l) (Recency.put Store.ops now h k e s).2 := by
  obtain ⟨init, ⟨eldest, x⟩, rfl⟩ : ∃ init p, l = init ++ [p] :=
    ⟨l.dropLast, l.getLast (by rintro rfl; simp at hlen; omega),
      (List.dropLast_concat_getLast _).symm⟩
  have hpush : (s.1.push k).1 = some eldest ∧ (s.1.push k).2.index = k :: init.map (·.1) := by
    have hroom : ¬ s.1.index.length < s.1.capacity := by
      rw [hs.index, List.length_map, hlen, hs.capacity]
      exact Nat.lt_irrefl n
    rw [Recency.push, if_neg (hs.index ▸ hk), if_neg hroom, hs.index, List.map_append]
    simp
  have hnodup : (((k, e) :: init ++ [(eldest, x)]).map (·.1)).Nodup := by
    rw [List.cons_append, List.map_cons, List.nodup_cons]
    exact ⟨hk, hs.nodup⟩
  rw [put_eq hs.refused, hpush.1, PairList.put_of_full hk hlen hn, List.dropLast_concat]
  constructor
  · exact hpush.2
  · exact (Recency.capacity_push s.1 k).trans hs.capacity
  · simpa using Nat.le_of_eq hlen
  · rw [List.map_append] at hnodup
    exact (List.nodup_append.1 hnodup).1
  · exact hs.refused
  · intro j
    rw [find_dropLast hnodup, List.cons_append, ← omitting_of_notMem hk, ← hs.get?_insert k e]
    split
    · next hj =>
      rw [hj]
      exact Table.get?_erase_self _ _
    · next hj => exact Table.get?_erase_of_ne _ hj

theorem put (hs : Mirrors n l s) (hn : 0 < n) (now : Instant) (h : Heap) (k : Key) (e : Entry) :
    Mirrors n (PairList.put n k e l) (Recency.put Store.ops now h k e s).2 := by
  by_cases hroom : k ∈ l.map (·.1) ∨ l.length < n
  · exact hs.put_of_room hroom now h e
  · rw [not_or, Nat.not_lt] at hroom
    exact hs.put_of_full hroom.1 (Nat.le_antisymm hs.length_le hroom.2) hn now h e

end Mirrors

/-- A use answers the same on both sides and leaves the same pairs. -/
theorem Mirrors.use {s : Stack [.recency]} (hs : Mirrors n l s) (hn : 0 < n) (u : CacheUse) :
    (u.call.run (stackOps [.recency]) s).1 = (use n u l).1 ∧
      Mirrors n (use n u l).2 (u.call.run (stackOps [.recency]) s).2 := by
  cases u with
  | put now h k e =>
    refine ⟨?_, hs.put hn now h k e⟩
    exact congrArg (fun r => CacheCall.Answer.stored r.1) (Mirrors.put_eq hs.refused now h k e)
  | get now h k =>
    have hget : Store.get k s.2 = .ok (find k l) := by
      simp [Store.get, hs.refused, hs.get?]
    exact ⟨congrArg (CacheCall.Answer.found · h) hget, hs.touch⟩
  | clear now => exact ⟨rfl, hs.clear⟩
  | size now => exact ⟨congrArg CacheCall.Answer.counted hs.size, hs⟩

/-- What holds of the new layer holds after any uses. -/
theorem mirrors_after (hn : 0 < n) (id : String) (past : List CacheUse) :
    Mirrors n (after n past) (CacheCall.after (stackOps [.recency])
      (Recency.ofCapacity n hn, Store.perpetual id) (past.map CacheUse.call)) := by
  induction past with
  | nil => exact ⟨rfl, rfl, Nat.zero_le n, .nil, rfl, fun _ => rfl⟩
  | cons u past ih => exact (ih.use hn u).2

theorem answers_stack (hn : 0 < n) (id : String) (past : List CacheUse) :
    CacheCall.answers (stackOps [.recency]) (Recency.ofCapacity n hn, Store.perpetual id)
      (past.map CacheUse.call) = answers n past := by
  induction past with
  | nil => rfl
  | cons u past ih => exact congr (congrArg _ ((mirrors_after hn id past).use hn u).1) ih

end PairList

/-- A layer of recently used keys over an empty perpetual store is least-recently-used: whatever is
put, read, emptied and counted, it answers as one list of at most `n` pairs by recency does. -/
theorem recency_answers (now : Instant) (id : String) {n : Nat} (hn : 0 < n)
    (past : List CacheUse) :
    ∃ c, Cache.wrapAll now [(.recency, some n)] (.ofStore (.perpetual id)) = .ok c ∧
      CacheCall.answers Cache.ops c (past.map CacheUse.call) = PairList.answers n past := by
  refine ⟨⟨[.recency], Recency.ofCapacity n hn, Store.perpetual id⟩, ?_, ?_⟩
  · simp only [Cache.wrapAll, Layer.measured, Recency.resized, dif_pos hn]
    rfl
  · exact (Cache.answers_ops [.recency] _ _).trans (PairList.answers_stack hn id past)

/-- Of two keys the one that was read stays when a third comes. -/
def readThenCrowded : List CacheUse :=
  [.size 3, .get 3 .empty (numberedKey 2), .get 3 .empty (numberedKey 1),
    .put 2 .empty (numberedKey 3) .absence, .get 1 .empty (numberedKey 1),
    .put 1 .empty (numberedKey 2) .absence, .put 0 .empty (numberedKey 1) .absence]

theorem recency_answers_readThenCrowded :
    0 < 2 ∧ ∃ c, Cache.wrapAll 0 [(.recency, some 2)] (.ofStore (.perpetual "lru")) = .ok c ∧
      CacheCall.answers Cache.ops c (readThenCrowded.map CacheUse.call) =
        [.counted 2, .found (.ok none) .empty, .found (.ok (some .absence)) .empty,
          .stored (.ok ()), .found (.ok (some .absence)) .empty, .stored (.ok ()),
          .stored (.ok ())] :=
  ⟨Nat.two_pos, recency_answers 0 "lru" Nat.two_pos readThenCrowded⟩

end ResultCache
