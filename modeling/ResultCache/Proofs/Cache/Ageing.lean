import ResultCache.Proofs.Cache.Bounds
import ResultCache.Proofs.Table

/-!
# How old an entry can get

A layer that clears at intervals looks at the clock in every call and empties the store when more
than the interval has passed since the last clear. When that was follows from the calls alone
(`CacheCall.intervalStart`), and so does when the entry of a key was put (`CacheCall.latestPut?`):
every call does what it does to the store below, which is emptied first if the time is up
(`Expiry.run_eq`), and what is in the store was put since the last clear (`Expiry.Dated`).

So nothing that is returned or counted is older than the interval, and as long as the interval is
not over the layer makes no difference (`expiry_serves_nothing_stale`).
-/
namespace ResultCache

namespace CacheCall

def time : CacheCall → Instant
  | put now .. => now
  | get now .. => now
  | remove now .. => now
  | clear now => now
  | size now => now

def isClear : CacheCall → Bool
  | clear _ => true
  | _ => false

/-- The key that the call looks for. -/
def sought? : CacheCall → Option Key
  | get _ _ k => some k
  | remove _ _ k => some k
  | _ => none

/-- When the cache was cleared last, by hand or because the interval was over; it starts when the
cache is made. -/
def intervalStart (d : Duration) (made : Instant) : List CacheCall → Instant
  | [] => made
  | c :: past =>
    if c.isClear = true ∨ intervalStart d made past + d < c.time then c.time
    else intervalStart d made past

/-- The latest put of a key that was neither removed nor cleared by hand since. -/
def latestPut? (k : Key) : List CacheCall → Option (Instant × Entry)
  | [] => none
  | .put now _ j e :: past => if j = k then some (now, e) else latestPut? k past
  | .remove _ _ j :: past => if j = k then none else latestPut? k past
  | .clear _ :: _ => none
  | .get .. :: past => latestPut? k past
  | .size _ :: past => latestPut? k past

/-- The clock never runs backwards, from when the cache is made on. -/
def Chronological (made : Instant) (past : List CacheCall) : Prop :=
  (past.map time ++ [made]).Pairwise (· ≥ ·)

instance (made : Instant) (past : List CacheCall) : Decidable (Chronological made past) :=
  inferInstanceAs (Decidable (List.Pairwise _ _))

variable {d : Duration} {made : Instant} {past : List CacheCall} {c : CacheCall}

theorem Chronological.tail (hpast : Chronological made (c :: past)) : Chronological made past :=
  (List.pairwise_cons.1 hpast).2

/-- The last clear was one of the calls, or the making of the cache. -/
theorem intervalStart_mem (d : Duration) (made : Instant) (past : List CacheCall) :
    intervalStart d made past ∈ past.map time ++ [made] := by
  induction past with
  | nil => simp [intervalStart]
  | cons c past ih =>
    rw [intervalStart]
    split
    · simp
    · exact List.mem_cons_of_mem _ ih

theorem Chronological.intervalStart_le (hpast : Chronological made (c :: past)) :
    intervalStart d made past ≤ c.time :=
  (List.pairwise_cons.1 hpast).1 _ (intervalStart_mem d made past)

/-- No call comes later after the last clear than the interval. -/
theorem time_le (d : Duration) (made : Instant) (c : CacheCall) (past : List CacheCall) :
    c.time ≤ intervalStart d made (c :: past) + d := by
  rw [intervalStart]
  split
  · exact Nat.le_add_right _ _
  · rename_i hrunning
    exact Nat.not_lt.1 fun hover => hrunning (.inr hover)

theorem Chronological.intervalStart_cons_le (hpast : Chronological made (c :: past)) :
    intervalStart d made (c :: past) ≤ c.time := by
  rw [intervalStart]
  split
  · exact Nat.le_refl _
  · exact hpast.intervalStart_le

/-- Where no clear is asked for, the last clear stays as it is unless the interval is over. -/
theorem intervalStart_cons (d : Duration) (made : Instant) (past : List CacheCall)
    (hc : c.isClear = false) :
    intervalStart d made (c :: past) =
      if intervalStart d made past + d < c.time then c.time else intervalStart d made past := by
  simp [intervalStart, hc]

/-- What came at most an interval after the last clear also did so after a later one. -/
theorem le_intervalStart_cons {p : Instant} (hc : c.isClear = false)
    (hp : p ≤ intervalStart d made past + d) : p ≤ intervalStart d made (c :: past) + d := by
  rw [intervalStart_cons d made past hc]
  split
  · rename_i hover
    exact Nat.le_trans (Nat.le_of_lt (Nat.lt_of_le_of_lt hp hover)) (Nat.le_add_right _ _)
  · exact hp

/-- A put that was not undone by hand came at most an interval after the last clear. -/
theorem latestPut?_le {k : Key} {p : Instant} {e : Entry}
    (hput : latestPut? k past = some (p, e)) : p ≤ intervalStart d made past + d := by
  induction past with
  | nil => cases hput
  | cons c past ih =>
    cases c with
    | put now h j x =>
      rw [latestPut?] at hput
      split at hput
      · cases hput
        exact time_le d made (.put p h j e) past
      · exact le_intervalStart_cons rfl (ih hput)
    | get now h j => exact le_intervalStart_cons rfl (ih hput)
    | remove now h j =>
      rw [latestPut?] at hput
      split at hput
      · cases hput
      · exact le_intervalStart_cons rfl (ih hput)
    | clear now => cases hput
    | size now => exact le_intervalStart_cons rfl (ih hput)

end CacheCall

namespace Expiry

open CacheCall

variable {d : Duration} {made : Instant} {past : List CacheCall} {c : CacheCall}
  {s : Expiry × Store}

/-- What is there when a call has looked at the clock: the store is emptied first if the call clears
or the interval is over. -/
def refreshed (c : CacheCall) (s : Expiry × Store) : Expiry × Store :=
  if c.isClear = true ∨ s.1.stale c.time = true then (s.1.cleared c.time, s.2.clear) else s

/-- Every call does to the store what it would do without the layer, once that has looked at the
clock. -/
theorem run_eq (hs : s.2.refused = []) (c : CacheCall) :
    c.run (ops Store.ops) s = ((c.run Store.ops (refreshed c s).2).1, (refreshed c s).1,
      (c.run Store.ops (refreshed c s).2).2) := by
  cases c with
  | clear now => rfl
  | put now h k e =>
    simp only [CacheCall.run, ops, put, refreshed, CacheCall.isClear, CacheCall.time,
      Bool.false_eq_true, false_or]
    split <;> rfl
  | size now =>
    simp only [CacheCall.run, ops, size, refreshed, CacheCall.isClear, CacheCall.time,
      Bool.false_eq_true, false_or]
    split <;> rfl
  | get now h k =>
    simp only [CacheCall.run, ops, get, refreshed, CacheCall.isClear, CacheCall.time,
      Bool.false_eq_true, false_or]
    split
    · simp [Store.ops, Store.get, Store.clear, hs, clear]
    · rfl
  | remove now h k =>
    have hnone : (Table.empty : Entries).erase k = .empty := Table.erase_of_get?_none rfl
    simp only [CacheCall.run, ops, remove, refreshed, CacheCall.isClear, CacheCall.time,
      Bool.false_eq_true, false_or]
    split
    · simp [Store.ops, Store.remove, Store.clear, hs, clear, hnone]
    · rfl

/-- The layer knows when it was cleared last, and an entry in the store is that of the latest put of
its key, made since then. -/
structure Dated (d : Duration) (made : Instant) (past : List CacheCall) (s : Expiry × Store) :
    Prop where
  clock : s.1 = ⟨d, intervalStart d made past⟩
  refused : s.2.refused = []
  entry : ∀ k e, s.2.entries.get? k = some e ↔
    ∃ p, latestPut? k past = some (p, e) ∧ intervalStart d made past ≤ p

namespace Dated

theorem stale_iff (hs : Dated d made past s) (now : Instant) :
    s.1.stale now = true ↔ intervalStart d made past + d < now := by
  rw [hs.clock]
  simpa [stale] using Nat.lt_sub_iff_add_lt'

/-- Looking at the clock keeps that, with the last clear as it is after the call. -/
theorem refresh (hs : Dated d made past s) (hc : c.isClear = false) :
    (refreshed c s).1 = ⟨d, intervalStart d made (c :: past)⟩ ∧ (refreshed c s).2.refused = [] ∧
      ∀ k e, (refreshed c s).2.entries.get? k = some e ↔
        ∃ p, latestPut? k past = some (p, e) ∧ intervalStart d made (c :: past) ≤ p := by
  rw [refreshed, intervalStart_cons d made past hc]
  by_cases hover : intervalStart d made past + d < c.time
  · rw [if_pos (.inr ((hs.stale_iff _).2 hover)), if_pos hover]
    refine ⟨by rw [hs.clock]; rfl, hs.refused, fun k e => ?_⟩
    constructor
    · exact fun he => by cases he
    · rintro ⟨p, hput, hp⟩
      exact absurd (Nat.lt_of_lt_of_le hover hp) (Nat.not_lt.2 (latestPut?_le hput))
  · rw [if_neg (by simp [hc, hs.stale_iff, hover]), if_neg hover]
    exact ⟨hs.clock, hs.refused, hs.entry⟩

/-- Every call keeps it, as the clock does not run backwards. -/
theorem call (hs : Dated d made past s) (hclock : Chronological made (c :: past)) :
    Dated d made (c :: past) (c.run (ops Store.ops) s).2 := by
  have hstart := hclock.intervalStart_cons_le (d := d)
  rw [run_eq hs.refused]
  cases c with
  | clear now =>
    rw [refreshed, if_pos (.inl rfl)]
    constructor
    · rw [hs.clock]
      simp [cleared, intervalStart, isClear, time]
    · exact hs.refused
    · intro k e
      constructor
      · intro he
        cases he
      · rintro ⟨p, hput, -⟩
        cases hput
  | put now h j x =>
    obtain ⟨hclock, hrefused, hentry⟩ := hs.refresh (c := .put now h j x) rfl
    generalize refreshed (.put now h j x) s = t at hclock hrefused hentry
    have hput : ((CacheCall.put now h j x).run Store.ops t.2).2 =
        { t.2 with entries := t.2.entries.insert j x } := by
      simp [CacheCall.run, Store.ops, Store.put, hrefused]
    rw [hput]
    refine ⟨hclock, hrefused, fun k e => ?_⟩
    rw [latestPut?]
    by_cases hk : j = k
    · subst hk
      rw [Table.get?_insert_self, if_pos rfl]
      constructor
      · intro he
        cases he
        exact ⟨now, rfl, hstart⟩
      · rintro ⟨p, hput, -⟩
        cases hput
        rfl
    · rw [if_neg hk, Table.get?_insert_of_ne _ _ (Ne.symm hk)]
      exact hentry k e
  | remove now h j =>
    obtain ⟨hclock, hrefused, hentry⟩ := hs.refresh (c := .remove now h j) rfl
    generalize refreshed (.remove now h j) s = t at hclock hrefused hentry
    have hremove : ((CacheCall.remove now h j).run Store.ops t.2).2 =
        { t.2 with entries := t.2.entries.erase j } := by
      simp [CacheCall.run, Store.ops, Store.remove, hrefused]
    rw [hremove]
    refine ⟨hclock, hrefused, fun k e => ?_⟩
    rw [latestPut?]
    by_cases hk : j = k
    · subst hk
      simp
    · rw [if_neg hk, Table.get?_erase_of_ne _ (Ne.symm hk)]
      exact hentry k e
  | get now h j =>
    obtain ⟨hclock, hrefused, hentry⟩ := hs.refresh (c := .get now h j) rfl
    exact ⟨hclock, hrefused, hentry⟩
  | size now =>
    obtain ⟨hclock, hrefused, hentry⟩ := hs.refresh (c := .size now) rfl
    exact ⟨hclock, hrefused, hentry⟩

end Dated

/-- It holds of a new layer over an empty store after any calls. -/
theorem dated_after (d : Duration) (made : Instant) (id : String)
    (hpast : Chronological made past) :
    Dated d made past
      (CacheCall.after (stackOps [.expiry]) (since made d, Store.perpetual id) past) := by
  induction past with
  | nil =>
    refine ⟨rfl, rfl, fun k e => ?_⟩
    constructor
    · intro he
      cases he
    · rintro ⟨p, hput, -⟩
      cases hput
  | cons c past ih => exact (ih hpast.tail).call hpast

namespace Dated

/-- What is in the store after a call is at most as old as the interval. -/
theorem age_le (hs : Dated d made (c :: past) s) {k : Key} {e : Entry}
    (he : s.2.entries.get? k = some e) :
    ∃ p, latestPut? k (c :: past) = some (p, e) ∧ c.time ≤ p + d := by
  obtain ⟨p, hput, hp⟩ := (hs.entry k e).1 he
  exact ⟨p, hput, Nat.le_trans (time_le d made c past) (Nat.add_le_add_right hp d)⟩

/-- What a read or a removal returns is at most as old as the interval. -/
theorem age_le_of_found (hs : Dated d made past s) {k : Key} {e : Entry} {h : Heap}
    (hk : c.sought? = some k) (he : (c.run (ops Store.ops) s).1 = .found (.ok (some e)) h) :
    ∃ p, latestPut? k past = some (p, e) ∧ c.time ≤ p + d := by
  have hc : c.isClear = false := by cases c <;> first | rfl | cases hk
  obtain ⟨-, hrefused, hentry⟩ := hs.refresh hc
  rw [run_eq hs.refused] at he
  have hfound : (refreshed c s).2.entries.get? k = some e := by
    cases c with
    | get now h j =>
      cases hk
      simpa [Store.ops, Store.get, hrefused] using (Answer.found.inj he).1
    | remove now h j =>
      cases hk
      simpa [Store.ops, Store.remove, hrefused] using (Answer.found.inj he).1
    | _ => cases hk
  obtain ⟨p, hput, hp⟩ := (hentry k e).1 hfound
  exact ⟨p, hput, Nat.le_trans (time_le d made c past) (Nat.add_le_add_right hp d)⟩

/-- Within the interval the layer makes no difference. -/
theorem run_within (hs : Dated d made past s) (hc : c.time ≤ intervalStart d made past + d) :
    (c.run (ops Store.ops) s).1 = (c.run Store.ops s.2).1 ∧
      (c.run (ops Store.ops) s).2.2 = (c.run Store.ops s.2).2 := by
  rw [run_eq hs.refused]
  cases hclear : c.isClear with
  | true =>
    cases c with
    | clear now => exact ⟨rfl, rfl⟩
    | _ => cases hclear
  | false =>
    have hfresh : refreshed c s = s := by
      rw [refreshed, if_neg (by simpa [hclear, hs.stale_iff] using hc)]
    rw [hfresh]
    exact ⟨rfl, rfl⟩

end Dated
end Expiry

/-- Whatever is put, read, removed, cleared and counted while the clock runs on: an entry that a
read or a removal returns, or that is counted, is that of the latest put of its key and at most as
old as the interval; and a call that comes within the interval since the last clear is answered by
the store and leaves in it what it would without the layer. -/
theorem expiry_serves_nothing_stale (id : String) (d : Duration) (made : Instant)
    (past : List CacheCall) (c : CacheCall) (hclock : CacheCall.Chronological made (c :: past)) :
    let s : Stack [.expiry] :=
      CacheCall.after (stackOps _) (Expiry.since made d, Store.perpetual id) past
    let r := c.run (stackOps [.expiry]) s
    (∀ k e h, c.sought? = some k → r.1 = .found (.ok (some e)) h →
      ∃ p, CacheCall.latestPut? k past = some (p, e) ∧ c.time ≤ p + d) ∧
    (∀ n, r.1 = .counted n → n = r.2.store.entries.size ∧
      ∀ k e, r.2.Has k e → ∃ p, CacheCall.latestPut? k past = some (p, e) ∧ c.time ≤ p + d) ∧
    (c.time ≤ CacheCall.intervalStart d made past + d →
      r.1 = (c.run Store.ops s.store).1 ∧ r.2.store = (c.run Store.ops s.store).2) := by
  intro s r
  have hs : Expiry.Dated d made past s := Expiry.dated_after d made id hclock.tail
  refine ⟨fun k e h hk he => hs.age_le_of_found hk he, fun n hn => ?_, fun hc => hs.run_within hc⟩
  cases c with
  | size now =>
    refine ⟨?_, fun k e he => (hs.call hclock).age_le he⟩
    obtain rfl := CacheCall.Answer.counted.inj hn
    rfl
  | _ => cases hn

/-- The read comes when the interval is over and clears the cache, the latest call first. -/
def readTooLate : List CacheCall :=
  [.put 15 .empty (numberedKey 2) .absence, .get 12 .empty (numberedKey 1),
    .put 3 .empty (numberedKey 1) .absence]

/-- One entry is counted after that, and it is young. -/
theorem expiry_serves_nothing_stale_readTooLate :
    let s : Stack [.expiry] :=
      CacheCall.after (stackOps _) (Expiry.since 0 9, Store.perpetual "c") readTooLate
    let r := (CacheCall.size 20).run (stackOps [.expiry]) s
    CacheCall.Chronological 0 (.size 20 :: readTooLate) ∧ r.1 = .counted 1 ∧
      ∀ k e, r.2.Has k e → ∃ p, CacheCall.latestPut? k readTooLate = some (p, e) ∧ 20 ≤ p + 9 := by
  intro s r
  have hclock : CacheCall.Chronological 0 (.size 20 :: readTooLate) := by decide
  have hcounted : r.1 = .counted 1 := rfl
  refine ⟨hclock, hcounted, ?_⟩
  exact ((expiry_serves_nothing_stale "c" 9 0 readTooLate (.size 20) hclock).2.1 1 hcounted).2

end ResultCache
