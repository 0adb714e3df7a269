import ResultCache.Cache.Store
import ResultCache.Proofs.Walk

/-!
# What a unit of work reads and publishes

A buffer over a store that only this unit of work uses is described by the calls made so far, the
latest first. `survivor` is the last put of a key that no clear dropped, `cleared` whether there was
a clear, and `absent` whether some read found that the store lacks the key and no release forgot it.

`Follows` ties the buffer and the store to that history: the store is as it was, and the three parts
of the buffer are the three functions. Every call keeps it (`Follows.step`), for a missed key is one
that the store lacks, so removing it there does nothing. What a read answers, a commit publishes and
a rollback leaves follows from it, in whatever order the buffer lists what it holds
(`unit_of_work`).
-/
namespace ResultCache.UnitOfWork

open Buffer (Reordered)

/-- A call on the buffer. A read and a release call the store at some moment. -/
inductive Call where
  | get (now : Instant) (h : Heap) (k : Key)
  | put (k : Key) (e : Entry)
  | clear
  | release (now : Instant) (h : Heap) (k : Key)

/-- The store with some contents. -/
def store (id : String) (S : Entries) : Store := { Store.perpetual id with entries := S }

def step (c : Call) (m : Buffer × Store) : Buffer × Store :=
  match c with
  | .get now h k => (Buffer.get Store.ops now h k m.1 m.2).2.2
  | .put k e => (m.1.put k e, m.2)
  | .clear => (m.1.clear, m.2)
  | .release now h k => Buffer.release Store.ops now h k m.1 m.2

/-- The buffer and the store after some calls, of which the latest is listed first. -/
def after (id : String) (S : Entries) : List Call → Buffer × Store
  | [] => (.empty, store id S)
  | c :: past => step c (after id S past)

/-- Whether a clear was called. -/
def cleared : List Call → Bool
  | [] => false
  | .clear :: _ => true
  | _ :: past => cleared past

/-- The last put of a key since the last clear. -/
def survivor : List Call → Key → Option Entry
  | [], _ => none
  | .put j e :: past, k => if j = k then some e else survivor past k
  | .clear :: _, _ => none
  | _ :: past, k => survivor past k

/-- Whether a read went through to the store, did not find the key there, and no release of the key
came after it. -/
def absent (S : Entries) : List Call → Key → Bool
  | [], _ => false
  | .get _ _ j :: past, k =>
    (j = k && (survivor past k).isNone && (S.get? k).isNone) || absent S past k
  | .release _ _ j :: past, k => j ≠ k && absent S past k
  | _ :: past, k => absent S past k

/-- What the unit of work reads. -/
def seen (S : Entries) (past : List Call) (k : Key) : Option Entry :=
  (survivor past k).or (if cleared past then none else S.get? k)

/-- What the store holds when the unit of work has committed. -/
def published (S : Entries) (past : List Call) (k : Key) : Option Entry :=
  (survivor past k).or
    (if absent S past k then some .absence else if cleared past then none else S.get? k)

/-- The buffer and the store are what the calls so far make of them. -/
structure Follows (id : String) (S : Entries) (past : List Call) (m : Buffer × Store) : Prop where
  store_eq : m.2 = store id S
  clearing : m.1.clearing = cleared past
  pending : ∀ k, m.1.pending.get? k = survivor past k
  missed : ∀ k, k ∈ m.1.missed ↔ absent S past k
  nodup : m.1.missed.Nodup

variable {id : String} {S : Entries} {past : List Call}

/-- A key that was found absent is absent: nobody else stores it. -/
theorem get?_of_absent {k : Key} (hk : absent S past k) : S.get? k = none := by
  induction past with
  | nil => cases hk
  | cons c past ih =>
    cases c with
    | get _ _ j =>
      rw [absent, Bool.or_eq_true] at hk
      rcases hk with hk | hk
      · rw [Bool.and_eq_true, Option.isNone_iff_eq_none] at hk
        exact hk.2
      · exact ih hk
    | put j e => exact ih hk
    | clear => exact ih hk
    | release _ _ j =>
      rw [absent, Bool.and_eq_true] at hk
      exact ih hk.2

/-- Removing a key that the store lacks leaves the store as it is. -/
theorem remove_store {k : Key} (hk : S.get? k = none) (now : Instant) (h : Heap) :
    (Store.ops.remove now h k (store id S)).2.2 = store id S := by
  change ((store id S).remove k).2 = store id S
  rw [Store.remove, if_neg (by simp [store, Store.perpetual])]
  change store id (S.erase k) = store id S
  rw [Table.erase_of_get?_none hk]

theorem removeAll_store {ks : List Key} (hks : ∀ k ∈ ks, S.get? k = none) (h : Heap)
    (now : Instant) : Buffer.removeAll Store.ops h now ks (store id S) = store id S := by
  induction ks generalizing now with
  | nil => rfl
  | cons k ks ih =>
    rw [Buffer.removeAll, remove_store (hks k List.mem_cons_self)]
    exact ih (fun j hj => hks j (List.mem_cons_of_mem _ hj)) (now + 1)

/-- Storing entries never fails and puts all of them. -/
theorem storeAll_store (ws : List (Key × Entry)) (h : Heap) (now : Instant) :
    Buffer.storeAll Store.ops h now ws (store id S) = (.ok (), store id (S.insertAll ws)) := by
  induction ws generalizing now S with
  | nil => rfl
  | cons w ws ih =>
    obtain ⟨k, e⟩ := w
    have hput : Store.ops.put now h k e (store id S) = (.ok (), store id (S.insert k e)) := rfl
    rw [Buffer.storeAll, hput]
    simp only [ih]
    rfl

/-- What a read of a buffer over the store answers, and what it makes of the buffer. -/
theorem get_store (now : Instant) (h : Heap) (k : Key) (b : Buffer) :
    Buffer.get Store.ops now h k b (store id S) =
      match b.pending.get? k, decide (k ∈ b.missed), S.get? k with
      | some e, _, _ => (.ok (some e), h, b, store id S)
      | none, true, _ => (.ok none, h, b, store id S)
      | none, false, none => (.ok none, h, b.miss k, store id S)
      | none, false, some e => (.ok (if b.clearing then none else some e), h, b, store id S) := by
  rw [Buffer.get]
  have hget : Store.ops.get now h k (store id S) = (.ok (S.get? k), h, store id S) := rfl
  rw [hget]
  cases b.pending.get? k <;> by_cases hk : k ∈ b.missed <;> cases S.get? k <;> simp [hk]

namespace Follows

theorem start (id : String) (S : Entries) : Follows id S [] (.empty, store id S) where
  store_eq := rfl
  clearing := rfl
  pending := fun _ => rfl
  missed := fun _ => by simp [Buffer.empty, absent]
  nodup := .nil

variable {m : Buffer × Store}

/-- A read that tells nothing new about the store leaves the buffer as it is. -/
theorem get_same (hm : Follows id S past m) (now : Instant) (h : Heap) {k : Key}
    (hk : survivor past k = none → S.get? k = none → absent S past k) :
    Follows id S (.get now h k :: past) m where
  store_eq := hm.store_eq
  clearing := hm.clearing
  pending := hm.pending
  missed := fun j => by
    rw [hm.missed j, absent]
    by_cases hj : k = j
    · subst hj
      cases hs : survivor past k <;> cases he : S.get? k <;> simp
      exact hk hs he
    · simp [hj]
  nodup := hm.nodup

/-- A read that finds the key absent from the store remembers it. -/
theorem get_miss (hm : Follows id S past m) (now : Instant) (h : Heap) {k : Key}
    (hs : survivor past k = none) (he : S.get? k = none) (hk : k ∉ m.1.missed) :
    Follows id S (.get now h k :: past) (m.1.miss k, m.2) where
  store_eq := hm.store_eq
  clearing := by
    rw [Buffer.miss, if_neg hk]
    exact hm.clearing
  pending := by
    rw [Buffer.miss, if_neg hk]
    exact hm.pending
  missed := fun j => by
    rw [Buffer.miss, if_neg hk, List.mem_cons, hm.missed j, absent]
    by_cases hj : k = j
    · subst hj
      simp [hs, he]
    · simp [hj, Ne.symm hj]
  nodup := by
    rw [Buffer.miss, if_neg hk]
    exact List.nodup_cons.2 ⟨hk, hm.nodup⟩

theorem get (hm : Follows id S past m) (now : Instant) (h : Heap) (k : Key) :
    Follows id S (.get now h k :: past) (step (.get now h k) m) := by
  obtain ⟨b, s⟩ := m
  obtain rfl : s = store id S := hm.store_eq
  have hs : b.pending.get? k = survivor past k := hm.pending k
  change Follows id S _ (Buffer.get Store.ops now h k b (store id S)).2.2
  rw [get_store, hs]
  cases hp : survivor past k with
  | some e => exact hm.get_same now h fun hn => by rw [hp] at hn; cases hn
  | none =>
    by_cases hk : k ∈ b.missed
    · rw [decide_eq_true hk]
      exact hm.get_same now h fun _ _ => (hm.missed k).1 hk
    · rw [decide_eq_false hk]
      cases he : S.get? k with
      | none => exact hm.get_miss now h hp he hk
      | some e => exact hm.get_same now h fun _ hn => by rw [he] at hn; cases hn

theorem put (hm : Follows id S past m) (k : Key) (e : Entry) :
    Follows id S (.put k e :: past) (step (.put k e) m) where
  store_eq := hm.store_eq
  clearing := hm.clearing
  pending := fun j => by
    change (m.1.pending.insert k e).get? j = survivor (.put k e :: past) j
    rw [survivor]
    by_cases hj : k = j
    · subst hj
      rw [if_pos rfl, Table.get?_insert_self]
    · rw [if_neg hj, Table.get?_insert_of_ne _ _ (Ne.symm hj), hm.pending j]
  missed := hm.missed
  nodup := hm.nodup

theorem clear (hm : Follows id S past m) : Follows id S (.clear :: past) (step .clear m) where
  store_eq := hm.store_eq
  clearing := rfl
  pending := fun _ => rfl
  missed := hm.missed
  nodup := hm.nodup

theorem release (hm : Follows id S past m) (now : Instant) (h : Heap) (k : Key) :
    Follows id S (.release now h k :: past) (step (.release now h k) m) := by
  obtain ⟨b, s⟩ := m
  obtain rfl : s = store id S := hm.store_eq
  change Follows id S _ (Buffer.release Store.ops now h k b (store id S))
  rw [Buffer.release]
  by_cases hk : k ∈ b.missed
  · have habsent : absent S past k := (hm.missed k).1 hk
    rw [if_pos hk, remove_store (get?_of_absent habsent)]
    refine ⟨rfl, hm.clearing, hm.pending, fun j => ?_, hm.nodup.filter _⟩
    change j ∈ b.missed.filter (· ≠ k) ↔ _
    rw [List.mem_filter, hm.missed j, absent]
    by_cases hj : k = j
    · simp [hj]
    · simp [hj, Ne.symm hj]
  · rw [if_neg hk]
    refine ⟨rfl, hm.clearing, hm.pending, fun j => ?_, hm.nodup⟩
    rw [hm.missed j, absent]
    by_cases hj : k = j
    · subst hj
      have hnot : ¬ absent S past k := fun ha => hk ((hm.missed k).2 ha)
      simp [hnot]
    · simp [hj]

theorem step (hm : Follows id S past m) (c : Call) : Follows id S (c :: past) (step c m) := by
  cases c with
  | get now h k => exact hm.get now h k
  | put k e => exact hm.put k e
  | clear => exact hm.clear
  | release now h k => exact hm.release now h k

end Follows

/-- After any calls the buffer and the store are what the history says. -/
theorem follows_after (id : String) (S : Entries) (past : List Call) :
    Follows id S past (after id S past) := by
  induction past with
  | nil => exact .start id S
  | cons c past ih => exact ih.step c

/-- No key is written twice: a missed key that was put is left to its put. -/
theorem nodup_writes {b : Buffer} (hb : b.missed.Nodup) : (b.writes.map (·.1)).Nodup := by
  rw [Buffer.writes, List.map_append, List.map_map]
  have hid : ((fun p : Key × Entry => p.1) ∘ fun k : Key => (k, Entry.absence)) = id := rfl
  rw [hid, List.map_id]
  refine List.nodup_append.2 ⟨b.pending.nodup, hb.filter _, fun k hk j hj he => ?_⟩
  subst he
  have hnot := (List.mem_filter.1 hj).2
  have hin : (b.pending.get? k).isSome := Table.mem_keys_iff.1 hk
  simp [Table.contains, hin] at hnot

theorem find_writes (b : Buffer) (k : Key) :
    Table.find k b.writes =
      (b.pending.get? k).or (if k ∈ b.missed then some .absence else none) := by
  rw [Buffer.writes, Table.find_append, Table.find_map_const]
  change (b.pending.get? k).or _ = _
  cases hk : b.pending.get? k with
  | some e => rfl
  | none => simp [List.mem_filter, Table.contains, hk]

/-- A unit of work over a store that nobody else uses, whatever was called so far and in whatever
order the buffer lists its keys: before it ends the store is untouched, a read answers the last put
since the last clear, or else nothing after a clear, or else what the store holds; a commit leaves
that in the store, and the absence of every key that was found absent, was not released since and
has no surviving put; a rollback leaves the store as it was. Both empty the buffer. -/
theorem unit_of_work (id : String) (S : Entries) (past : List Call) :
    let m := after id S past
    m.2 = store id S ∧
    (∀ now h k, (Buffer.get Store.ops now h k m.1 m.2).1 = .ok (seen S past k)) ∧
    (∀ b now h, Reordered m.1 b →
      ∃ T, Buffer.commit Store.ops now h b m.2 = (.ok (), .empty, store id T) ∧
        ∀ k, T.get? k = published S past k) ∧
    (∀ b now h, Reordered m.1 b →
      Buffer.rollback Store.ops now h b m.2 = (.empty, store id S)) ∧
    Buffer.empty.isPending = false := by
  intro m
  have hm : Follows id S past m := follows_after id S past
  have hstore : m.2 = store id S := hm.store_eq
  refine ⟨hstore, fun now h k => ?_, fun b now h hb => ?_, fun b now h hb => ?_, rfl⟩
  · have hs : m.1.pending.get? k = survivor past k := hm.pending k
    rw [hstore, get_store, hs, seen]
    cases survivor past k with
    | some e => rfl
    | none =>
      by_cases hk : k ∈ m.1.missed
      · have he := get?_of_absent ((hm.missed k).1 hk)
        simp [hk, he]
      · rw [decide_eq_false hk, hm.clearing]
        cases S.get? k <;> simp
  · obtain ⟨T, hT, hclear⟩ : ∃ T : Entries,
        (if b.clearing then Store.ops.clear now m.2 else m.2) = store id T ∧
          ∀ k, T.get? k = if cleared past then none else S.get? k := by
      rw [hb.clearing, hm.clearing, hstore]
      cases cleared past
      · exact ⟨S, rfl, fun _ => rfl⟩
      · exact ⟨.empty, rfl, fun _ => rfl⟩
    refine ⟨T.insertAll b.writes, ?_, fun k => ?_⟩
    · rw [Buffer.commit, hT, storeAll_store]
    · have hmiss : k ∈ b.missed ↔ absent S past k := hb.mem_missed.trans (hm.missed k)
      rw [Table.get?_insertAll T (nodup_writes (hb.nodup hm.nodup)), find_writes, hb.get? k,
        hm.pending k, hclear k, published]
      cases survivor past k <;> by_cases ha : absent S past k <;> simp [hmiss, ha]
  · have hmissed : ∀ k ∈ b.missed, S.get? k = none := fun k hk =>
      get?_of_absent ((hm.missed k).1 (hb.mem_missed.1 hk))
    rw [Buffer.rollback, hstore, removeAll_store hmissed]

end ResultCache.UnitOfWork
