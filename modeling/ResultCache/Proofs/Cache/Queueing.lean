import ResultCache.Proofs.Cache.Dropping

/-!
# What a queue of arrivals drops

A layer of latest arrivals is meant to make room when the store is full. Its queue knows only puts,
though: after any calls it holds the keys of the latest `n` puts since the last clear, in their
order, repeats and keys that were removed by hand included (`Arrival.Queued`). So a put drops the
entry of another key exactly if that key is the one of the `n`-th put before it
(`arrival_drops_put`).

Each of these `n` places either stands for an entry of another key or is `CacheCall.Idle`: its key is
the one that is put now, or it was removed by hand, or it was put another time less than `n` puts
away. The entries of other keys and the idle places are together as many as the bound, so the drop
comes too early by one place for every idle one, also in runs that never use more than `n` keys.
`arrival_drops_early` is a run of three puts.
-/
namespace ResultCache

namespace CacheCall

/-- The keys of the puts since the last clear, the latest first. -/
def putKeys : List CacheCall → List Key
  | [] => []
  | .put _ _ k _ :: past => k :: putKeys past
  | .clear _ :: _ => []
  | .get .. :: past => putKeys past
  | .remove .. :: past => putKeys past
  | .size _ :: past => putKeys past

/-- The put with so many puts after it keeps a place that serves no entry of a key other than `k`:
it was a put of `k`, or of a key that was removed by hand since, or of one that was put another time
less than `n` puts away. -/
def Idle (n : Nat) (past : List CacheCall) (k : Key) (i : Nat) : Prop :=
  ∃ g, (putKeys past)[i]? = some g ∧ (g = k ∨ Withdrawn g past ∨
    ∃ i', i' ≠ i ∧ i < i' + n ∧ i' < i + n ∧ (putKeys past)[i']? = some g)

end CacheCall

namespace Arrival

variable {a : Arrival} {n : Nat} {k j : Key} {l : List Key}

/-- A queue of the latest keys of a list lets go the one that has become too old. -/
theorem push_of_queue (hqueue : a.queue = (l.take a.bound).reverse) (hpos : 0 < a.bound)
    (k : Key) :
    a.push k = (l[a.bound - 1]?, { a with queue := ((k :: l).take a.bound).reverse }) := by
  have hnew : a.queue ++ [k] = (k :: l.take a.bound).reverse := by
    rw [hqueue, List.reverse_cons]
  have hlen : a.queue.length = min a.bound l.length := by
    rw [hqueue, List.length_reverse, List.length_take]
  rw [push_eq, hnew, hlen]
  by_cases hfull : a.bound ≤ l.length
  · have hlast : (k :: l.take a.bound).getLast? = l[a.bound - 1]? := by
      have holdest : l[a.bound - 1]? = some l[a.bound - 1] := List.getElem?_eq_getElem (by omega)
      rw [← List.take_succ_cons, List.getLast?_take]
      simp [List.getElem?_cons, hpos.ne', holdest]
    have hinit : (k :: l.take a.bound).dropLast = (k :: l).take a.bound := by
      rw [← List.take_succ_cons, List.dropLast_eq_take, List.take_take, List.length_take,
        List.length_cons]
      congr 1
      omega
    rw [if_pos (by omega), List.head?_reverse, hlast, List.tail_reverse, hinit]
  · have hall : k :: l.take a.bound = (k :: l).take a.bound := by
      rw [List.take_of_length_le (by omega), List.take_of_length_le]
      rw [List.length_cons]
      omega
    have hnone : l[a.bound - 1]? = none := List.getElem?_eq_none (by omega)
    rw [if_neg (by omega), hall, hnone]

variable {s : Arrival × Store}

/-- Over a store that refuses nothing a put returns, and the key that leaves loses its entry. -/
theorem put_eq (hs : s.2.refused = []) (now : Instant) (h : Heap) (k : Key) (e : Entry) :
    put Store.ops now h k e s = (.ok (), (s.1.push k).2,
      { s.2 with entries :=
          ((s.1.push k).1.elim s.2.entries s.2.entries.erase).insert k e }) := by
  rw [put]
  cases s.1.push k with
  | mk out a => cases out <;> simp [Store.ops, Store.put, Store.remove, hs, below]

theorem holds_put (hs : s.2.refused = []) (now : Instant) (h : Heap) (k : Key) (e : Entry)
    (j : Key) :
    (put Store.ops now h k e s).2.2.holds j = true ↔
      j = k ∨ s.2.holds j = true ∧ (s.1.push k).1 ≠ some j := by
  rw [put_eq hs]
  change Table.contains (Table.insert _ k e) j = true ↔ _
  rw [Table.contains_insert]
  cases (s.1.push k).1 with
  | none => simp [Store.holds]
  | some oldest =>
    rw [Option.elim_some, Table.contains_erase, and_comm, ne_comm]
    simp [Store.holds]

/-- The queue holds the latest puts, and a key with an entry is one of them. A put that is the
latest of its key left an entry there, unless that was removed by hand or an older put of the key
took it along. -/
structure Queued (n : Nat) (past : List CacheCall) (s : Arrival × Store) : Prop where
  bound : s.1.bound = n
  queue : s.1.queue = ((CacheCall.putKeys past).take n).reverse
  refused : s.2.refused = []
  listed : ∀ k, s.2.holds k = true → k ∈ (CacheCall.putKeys past).take n
  served : ∀ i g, i < n → (CacheCall.putKeys past)[i]? = some g →
    g ∉ (CacheCall.putKeys past).take i → s.2.holds g = true ∨ CacheCall.Withdrawn g past ∨
      ∃ i', i < i' ∧ i' < i + n ∧ (CacheCall.putKeys past)[i']? = some g

namespace Queued

variable {past : List CacheCall}

/-- What leaves is the key of the put that is `n` puts old. -/
theorem push (hs : Queued n past s) (hn : 0 < n) (k : Key) :
    s.1.push k = ((CacheCall.putKeys past)[n - 1]?,
      ⟨n, ((k :: CacheCall.putKeys past).take n).reverse⟩) := by
  obtain rfl := hs.bound
  exact push_of_queue hs.queue hn k

theorem drops_put_iff (hs : Queued n past s) (hn : 0 < n) (now : Instant) (h : Heap) (k : Key)
    (e : Entry) (j : Key) :
    @Stack.Drops [.arrival] s (.put now h k e) j ↔
      s.2.holds j = true ∧ j ≠ k ∧ (CacheCall.putKeys past)[n - 1]? = some j := by
  change s.2.holds j = true ∧ (Arrival.put Store.ops now h k e s).2.2.holds j = false ↔ _
  rw [← Bool.not_eq_true, holds_put hs.refused, hs.push hn]
  tauto

theorem put (hs : Queued n past s) (hn : 0 < n) (now : Instant) (h : Heap) (k : Key) (e : Entry) :
    Queued n (.put now h k e :: past) (Arrival.put Store.ops now h k e s).2 := by
  have hput := put_eq hs.refused now h k e
  have hheld := holds_put hs.refused now h k e
  rw [hs.push hn] at hput hheld
  constructor
  · rw [hput]
  · rw [hput]
    rfl
  · rw [hput]
    exact hs.refused
  · intro j hj
    obtain ⟨m, rfl⟩ : ∃ m, n = m + 1 := ⟨n - 1, by omega⟩
    rw [CacheCall.putKeys, List.take_succ_cons, List.mem_cons]
    refine ((hheld j).1 hj).imp_right fun ⟨hj, hout⟩ => ?_
    -- an entry that is not driven out is not that of the oldest of the latest puts
    have hmem := hs.listed j hj
    rw [List.take_add_one, List.mem_append, Option.mem_toList] at hmem
    exact hmem.resolve_right hout
  · intro i g hi hg hlatest
    cases i with
    | zero =>
      obtain rfl : k = g := by simpa [CacheCall.putKeys] using hg
      exact .inl ((hheld k).2 (.inl rfl))
    | succ i =>
      rw [CacheCall.putKeys, List.getElem?_cons_succ] at hg
      rw [CacheCall.putKeys, List.take_succ_cons, List.mem_cons, not_or] at hlatest
      have hshift : ∀ i', (CacheCall.putKeys (.put now h k e :: past))[i' + 1]? =
          (CacheCall.putKeys past)[i']? := fun i' => List.getElem?_cons_succ
      rcases hs.served i g (by omega) hg hlatest.2 with hentry | hgone | ⟨i', hlt, hnear, hi'⟩
      · by_cases hout : (CacheCall.putKeys past)[n - 1]? = some g
        · exact .inr (.inr ⟨n - 1 + 1, by omega, by omega, (hshift (n - 1)).trans hout⟩)
        · exact .inl ((hheld g).2 (.inr ⟨hentry, hout⟩))
      · exact .inr (.inl ⟨Ne.symm hlatest.1, hgone⟩)
      · exact .inr (.inr ⟨i' + 1, by omega, by omega, (hshift i').trans hi'⟩)

/-- A removal leaves the queue as it is. -/
theorem remove (hs : Queued n past s) (now : Instant) (h : Heap) (k : Key) :
    Queued n (.remove now h k :: past) (s.1, (s.2.remove k).2) := by
  have hopen : s.2.Open false := ⟨hs.refused, fun he => by cases he⟩
  rw [Store.remove_open hopen]
  constructor
  · exact hs.bound
  · exact hs.queue
  · exact hs.refused
  · exact fun j hj => hs.listed j ((Table.contains_erase _ _ _).1 hj).2
  · intro i g hi hg hlatest
    by_cases hgk : g = k
    · exact .inr (.inl (.inl hgk.symm))
    · rcases hs.served i g hi hg hlatest with hentry | hgone | htwin
      · exact .inl ((Table.contains_erase _ _ _).2 ⟨hgk, hentry⟩)
      · exact .inr (.inl (.inr hgone))
      · exact .inr (.inr htwin)

theorem clear (hs : Queued n past s) (now : Instant) :
    Queued n (.clear now :: past) (s.1.forget, s.2.clear) := by
  constructor
  · exact hs.bound
  · simp [forget, CacheCall.putKeys]
  · exact hs.refused
  · exact fun j hj => by cases hj
  · exact fun i g _ hg => by cases hg

end Queued

/-- The queue of a new layer is in order after any calls. -/
theorem queued_after (hn : 0 < n) (id : String) (past : List CacheCall) :
    Queued n past (CacheCall.after (stackOps [.arrival]) (ofBound n, Store.perpetual id) past) := by
  induction past with
  | nil =>
    constructor
    · rfl
    · simp [CacheCall.after, ofBound, CacheCall.putKeys]
    · rfl
    · exact fun j hj => by cases hj
    · exact fun i g _ hg => by cases hg
  | cons c past ih =>
    cases c with
    | put now h k e => exact ih.put hn now h k e
    | get now h k => exact ⟨ih.bound, ih.queue, ih.refused, ih.listed, ih.served⟩
    | remove now h k => exact ih.remove now h k
    | clear now => exact ih.clear now
    | size now => exact ⟨ih.bound, ih.queue, ih.refused, ih.listed, ih.served⟩

/-- A place is that of the latest put of its key. -/
theorem idxOf_eq {i : Nat} (hi : l[i]? = some k) (hlatest : k ∉ l.take i) : l.idxOf k = i := by
  have hmem : k ∈ l := List.mem_of_getElem? hi
  have hnext : k ∈ l.take (i + 1) := by simp [List.take_add_one, hi]
  rw [List.mem_take_iff_idxOf_lt hmem] at hlatest hnext
  omega

/-- The places of a full queue are those of the other entries and idle ones. -/
theorem Queued.places {past : List CacheCall} (hs : Queued n past s)
    (hfull : n ≤ (CacheCall.putKeys past).length) (k : Key) :
    ∃ idle : Finset Nat, s.2.others k + idle.card = n ∧
      ∀ i ∈ idle, i < n ∧ CacheCall.Idle n past k i := by
  let keys := CacheCall.putKeys past
  let held := (keys.take n).toFinset.filter fun g => g ≠ k ∧ s.2.holds g = true
  let busy := held.image keys.idxOf
  have hheld : ∀ g, g ∈ held ↔ g ≠ k ∧ s.2.holds g = true := by
    intro g
    simp only [held, Finset.mem_filter, List.mem_toFinset]
    exact ⟨And.right, fun hg => ⟨hs.listed g hg.2, hg⟩⟩
  have hmem : ∀ g ∈ held, g ∈ keys.take n := fun g hg => hs.listed g ((hheld g).1 hg).2
  have hsub : busy ⊆ Finset.range n := by
    intro i hi
    obtain ⟨g, hg, rfl⟩ := Finset.mem_image.1 hi
    have hlisted := hmem g hg
    rwa [List.mem_take_iff_idxOf_lt (List.mem_of_mem_take hlisted), ← Finset.mem_range] at hlisted
  have hcard : busy.card = s.2.others k := by
    rw [Store.others_eq_card hheld]
    apply Finset.card_image_of_injOn
    intro g hg g' _ he
    exact (List.idxOf_inj (List.mem_of_mem_take (hmem g hg))).1 he
  refine ⟨Finset.range n \ busy, ?_, fun i hi => ?_⟩
  · rw [← hcard, add_comm, Finset.card_sdiff_add_card_eq_card hsub, Finset.card_range]
  · obtain ⟨hi, hbusy⟩ := Finset.mem_sdiff.1 hi
    have hin : i < n := Finset.mem_range.1 hi
    have hg : keys[i]? = some keys[i] := List.getElem?_eq_getElem (Nat.lt_of_lt_of_le hin hfull)
    refine ⟨hin, keys[i], hg, ?_⟩
    by_cases hlatest : keys[i] ∈ keys.take i
    · obtain ⟨i', hlt, hi'⟩ := List.mem_take_iff_getElem.1 hlatest
      have hi' : keys[i']? = some keys[i] := by
        rw [← hi']
        exact List.getElem?_eq_getElem _
      exact .inr (.inr ⟨i', by omega, by omega, by omega, hi'⟩)
    · by_cases hgk : keys[i] = k
      · exact .inl hgk
      · rcases hs.served i _ hin hg hlatest with hentry | hgone | ⟨i', hlt, hnear, hi'⟩
        · refine absurd (Finset.mem_image.2 ⟨keys[i], (hheld _).2 ⟨hgk, hentry⟩, ?_⟩) hbusy
          exact idxOf_eq hg hlatest
        · exact .inr (.inl hgone)
        · exact .inr (.inr ⟨i', by omega, by omega, hnear, hi'⟩)

/-- Keys with an entry were put, so there are fewer others than keys in use. -/
theorem Queued.others_lt {past : List CacheCall} (hs : Queued n past s) (k : Key) :
    s.2.others k < (insert k (CacheCall.putKeys past).toFinset).card := by
  let held := (CacheCall.putKeys past).toFinset.filter fun g => g ≠ k ∧ s.2.holds g = true
  have hheld : ∀ g, g ∈ held ↔ g ≠ k ∧ s.2.holds g = true := by
    intro g
    simp only [held, Finset.mem_filter, List.mem_toFinset]
    exact ⟨And.right, fun hg => ⟨List.mem_of_mem_take (hs.listed g hg.2), hg⟩⟩
  have hk : k ∉ held := fun hk => ((hheld k).1 hk).1 rfl
  calc s.2.others k < held.card + 1 := by
        rw [Store.others_eq_card hheld]
        exact Nat.lt_succ_self _
    _ = (insert k held).card := (Finset.card_insert_of_notMem hk).symm
    _ ≤ (insert k (CacheCall.putKeys past).toFinset).card :=
      Finset.card_le_card (Finset.insert_subset_insert k (Finset.filter_subset _ _))

end Arrival

/-- A put through a layer of latest arrivals drops an entry exactly if it is that of another key,
put `n` puts ago. Then the other entries and the idle ones of the latest `n` puts are together as
many as the bound, so one of these puts is idle if no more than `n` keys are in use. -/
theorem arrival_drops_put (id : String) {n : Nat} (hn : 0 < n) (past : List CacheCall)
    (now : Instant) (h : Heap) (k : Key) (e : Entry) (j : Key) :
    let s : Stack [.arrival] :=
      CacheCall.after (stackOps _) (Arrival.ofBound n, Store.perpetual id) past
    (s.Drops (.put now h k e) j ↔ s.store.holds j = true ∧ j ≠ k ∧
      (CacheCall.putKeys past)[n - 1]? = some j) ∧
    (s.Drops (.put now h k e) j →
      (∃ idle : Finset Nat, s.store.others k + idle.card = n ∧
        ∀ i ∈ idle, i < n ∧ CacheCall.Idle n past k i) ∧
      ((insert k (CacheCall.putKeys past).toFinset).card ≤ n →
        ∃ i < n, CacheCall.Idle n past k i)) := by
  intro s
  have hs : Arrival.Queued n past s := Arrival.queued_after hn id past
  have hdrops := hs.drops_put_iff hn now h k e j
  refine ⟨hdrops, fun hdrop => ?_⟩
  have hfull : n ≤ (CacheCall.putKeys past).length := by
    obtain ⟨hlt, -⟩ := List.getElem?_eq_some_iff.1 (hdrops.1 hdrop).2.2
    omega
  obtain ⟨idle, hcard, hidle⟩ := hs.places hfull k
  refine ⟨⟨idle, hcard, hidle⟩, fun hfew => ?_⟩
  have hothers := hs.others_lt k
  obtain ⟨i, hi⟩ : idle.Nonempty := by
    rw [← Finset.card_pos]
    omega
  exact ⟨i, hidle i hi⟩

/-- One key is put twice, the latest call first. -/
def doubled : List CacheCall :=
  [.put 1 .empty (numberedKey 1) .absence, .put 0 .empty (numberedKey 1) .absence]

/-- In a layer for two keys the second one drops the first, whose older put has an idle place. -/
theorem arrival_drops_put_doubled :
    let s : Stack [.arrival] :=
      CacheCall.after (stackOps _) (Arrival.ofBound 2, Store.perpetual "b") doubled
    0 < 2 ∧ s.Drops (.put 2 .empty (numberedKey 2) .absence) (numberedKey 1) ∧
      ∃ idle : Finset Nat, idle.card = 1 ∧
        ∀ i ∈ idle, i < 2 ∧ CacheCall.Idle 2 doubled (numberedKey 2) i := by
  intro s
  have hdrops : s.Drops (.put 2 .empty (numberedKey 2) .absence) (numberedKey 1) := by
    decide +kernel
  have hothers : s.store.others (numberedKey 2) = 1 := by decide +kernel
  obtain ⟨idle, hcard, hidle⟩ :=
    ((arrival_drops_put "b" Nat.two_pos doubled 2 .empty (numberedKey 2) .absence
      (numberedKey 1)).2 hdrops).1
  refine ⟨Nat.two_pos, hdrops, idle, ?_, hidle⟩
  change s.store.others (numberedKey 2) + idle.card = 2 at hcard
  omega

/-- So the first key loses its entry though the store held only that one, in a run that uses no more
keys than there is room for. -/
theorem arrival_drops_early :
    ¬ ∀ (id : String) {n : Nat} (_ : 0 < n) (past : List CacheCall) (now : Instant) (h : Heap)
      (k : Key) (e : Entry) (j : Key),
      let s : Stack [.arrival] :=
        CacheCall.after (stackOps _) (Arrival.ofBound n, Store.perpetual id) past
      s.Drops (.put now h k e) j → s.store.others k = n := by
  intro hfull
  have hothers := hfull "b" Nat.two_pos doubled 2 .empty (numberedKey 2) .absence (numberedKey 1)
    (by decide +kernel)
  exact absurd hothers (by decide +kernel)

end ResultCache
