import ResultCache.Cache.Arrival
import ResultCache.Cache.Recency

/-!
# Which keys leave

A layer that bounds the cache below lists keys: the most recently used ones or the latest arrivals.
Its bound holds while every key with an entry is listed (`Covers`, `Covers.size_le`). When a key is
put it joins the list, the list stays within the bound, and a key that was listed still is unless it
is the one that leaves; so the list covers what is there after the put if that one was removed
(`Covers.cycle`).
-/
namespace ResultCache

/-- At most `n` keys are listed, and every key that has an entry is. -/
structure Covers (Has : Key → Entry → Prop) (n : Nat) (ks : List Key) : Prop where
  length_le : ks.length ≤ n
  mem : ∀ k e, Has k e → k ∈ ks

namespace Covers

variable {Has Has' : Key → Entry → Prop} {n : Nat} {ks ks' : List Key}

theorem mono (hks : Covers Has n ks) (hHas : ∀ k e, Has' k e → Has k e) : Covers Has' n ks :=
  ⟨hks.length_le, fun k e he => hks.mem k e (hHas k e he)⟩

/-- A key is listed and gets an entry, and another one leaves and loses its own. -/
theorem cycle {k : Key} {out : Option Key} (hks : Covers Has n ks) (hlen : ks'.length ≤ n)
    (hk : k ∈ ks') (hleave : ∀ j ∈ ks, j ∈ ks' ∨ out = some j)
    (hHas : ∀ j e, Has' j e → j = k ∨ Has j e ∧ out ≠ some j) : Covers Has' n ks' := by
  constructor
  · exact hlen
  · intro j e he
    rcases hHas j e he with rfl | ⟨hj, hout⟩
    · exact hk
    · exact (hleave j (hks.mem j e hj)).resolve_right hout

/-- No key occurs twice in a store, so it has no more entries than are listed. -/
theorem size_le {t : Entries} (hks : Covers (fun k e => t.get? k = some e) n ks) : t.size ≤ n := by
  have hsub : t.keys ⊆ ks := by
    intro k hk
    obtain ⟨e, he⟩ := Option.isSome_iff_exists.1 (Table.mem_keys_iff.1 hk)
    exact hks.mem k e he
  calc t.size = t.keys.length := by simp [Table.size, Table.keys]
    _ ≤ ks.length := t.nodup.length_le_of_subset hsub
    _ ≤ n := hks.length_le

end Covers

namespace Recency

variable {r : Recency} {k j : Key}

theorem capacity_touch (r : Recency) (k : Key) : (r.touch k).capacity = r.capacity := by
  rw [touch]
  split <;> rfl

theorem mem_touch : j ∈ (r.touch k).index ↔ j ∈ r.index := by
  rw [touch]
  split
  · by_cases hj : j = k
    · subst hj
      simpa
    · simp [hj]
  · rfl

theorem length_touch (r : Recency) (k : Key) : (r.touch k).index.length ≤ r.index.length := by
  rw [touch]
  split
  · rename_i hk
    have hlt : (r.index.filter (· ≠ k)).length < r.index.length :=
      List.length_filter_lt_length_iff_exists.2 ⟨k, hk, by simp⟩
    simp only [List.length_cons]
    omega
  · exact Nat.le_refl _

theorem capacity_push (r : Recency) (k : Key) : (r.push k).2.capacity = r.capacity := by
  rw [push]
  split
  · exact capacity_touch r k
  · split <;> rfl

theorem mem_push_self (r : Recency) (k : Key) : k ∈ (r.push k).2.index := by
  rw [push]
  split
  · rename_i hk
    exact mem_touch.2 hk
  · split <;> simp

/-- A key that was listed still is, unless it is the one that falls out. -/
theorem mem_push_or_evicted (hj : j ∈ r.index) :
    j ∈ (r.push k).2.index ∨ (r.push k).1 = some j := by
  rw [push]
  split
  · exact .inl (mem_touch.2 hj)
  · split
    · exact .inl (List.mem_cons_of_mem _ hj)
    · have hne : r.index ≠ [] := List.ne_nil_of_mem hj
      rw [← List.dropLast_concat_getLast hne, List.mem_append, List.mem_singleton] at hj
      rcases hj with hj | hj
      · exact .inl (List.mem_cons_of_mem _ hj)
      · right
        rw [hj]
        exact List.getLast?_eq_some_getLast hne

theorem length_push (hr : r.index.length ≤ r.capacity) :
    (r.push k).2.index.length ≤ r.capacity := by
  have hpos := r.capacity_pos
  rw [push]
  split
  · exact Nat.le_trans (length_touch r k) hr
  · split
    · simp only [List.length_cons]
      omega
    · simp only [List.length_cons, List.length_dropLast]
      omega

end Recency

namespace Arrival

variable {a : Arrival} {k j : Key}

/-- The queue with the new key, of which the first leaves if there are too many. -/
theorem push_eq (a : Arrival) (k : Key) :
    a.push k = if a.bound ≤ a.queue.length then
      ((a.queue ++ [k]).head?, { a with queue := (a.queue ++ [k]).tail })
    else (none, { a with queue := a.queue ++ [k] }) := by
  have hlen : (a.queue ++ [k]).length = a.queue.length + 1 := by simp
  rw [push]
  split
  · rename_i oldest rest hqueue
    rw [hqueue] at hlen ⊢
    simp only [hlen, List.head?_cons, List.tail_cons, Nat.lt_succ_iff]
  · rename_i hqueue
    simp at hqueue

theorem bound_push (a : Arrival) (k : Key) : (a.push k).2.bound = a.bound := by
  rw [push_eq]
  split <;> rfl

theorem length_push (ha : a.queue.length ≤ a.bound) :
    (a.push k).2.queue.length ≤ a.bound := by
  rw [push_eq]
  split
  · simpa using ha
  · simp only [List.length_append, List.length_singleton]
    omega

/-- If there is room for one key at all, it is not the new one that leaves. -/
theorem mem_push_self (hpos : 0 < a.bound) (k : Key) : k ∈ (a.push k).2.queue := by
  rw [push_eq]
  split
  · cases hqueue : a.queue with
    | nil =>
      simp only [hqueue, List.length_nil] at *
      omega
    | cons oldest rest => simp
  · simp

theorem mem_push_or_evicted (hj : j ∈ a.queue) :
    j ∈ (a.push k).2.queue ∨ (a.push k).1 = some j := by
  rw [push_eq]
  split
  · cases hqueue : a.queue with
    | nil => simp [hqueue] at hj
    | cons oldest rest =>
      rw [hqueue, List.mem_cons] at hj
      rcases hj with rfl | hj
      · exact .inr rfl
      · exact .inl (by simp [hj])
  · exact .inl (List.mem_append_left _ hj)

end Arrival

end ResultCache
