import Mathlib.Logic.Function.Basic
import ResultCache.Cache.Gate
import ResultCache.Proofs.Walk

/-!
# Units of work in front of a cache that locks keys

Any number of units of work share one cache whose outermost layer locks keys (`Crew`). They call
their buffers in any order; what lies below the layer may answer anything. A read of a key that is
locked either fails or has not happened yet, and changes nothing in both cases.

A call changes the locked keys and the keys that its unit of work missed in the same way
(`mem_held_run`, `mem_missed_run`): a read that finds nothing adds its key to both, and the keys that
a call gives up (`WorkCall.Frees`) leave both. So whoever took the lock of a key still misses that
key, as long as the key is locked (`locks_accounted_for`).
-/
namespace ResultCache

/-- A call of a unit of work on its buffer. What reaches the cache does so at some moment, and at
the end of the unit of work in some order. -/
inductive WorkCall where
  | get (now : Instant) (h : Heap) (k : Key)
  | put (k : Key) (e : Entry)
  | clear
  | release (now : Instant) (h : Heap) (k : Key)
  | commit (now : Instant) (h : Heap) (w : Buffer.Walk)
  | rollback (now : Instant) (h : Heap) (w : Buffer.Walk)

/-- Whether a read of the key goes on to the cache. -/
def Buffer.Asks (b : Buffer) (k : Key) : Prop := b.pending.get? k = none ∧ k ∉ b.missed

namespace WorkCall

/-- What a call makes of the buffer and of the cache. -/
def run {ρ : Type} (C : CacheOps ρ) : WorkCall → Buffer × ρ → Buffer × ρ
  | .get now h k, m => (Buffer.get C now h k m.1 m.2).2.2
  | .put k e, m => (m.1.put k e, m.2)
  | .clear, m => (m.1.clear, m.2)
  | .release now h k, m => Buffer.release C now h k m.1 m.2
  | .commit now h w, m => (Buffer.commit C now h (w.order m.1) m.2).2
  | .rollback now h w, m => Buffer.rollback C now h (w.order m.1) m.2

/-- The keys that a call gives up: it puts them to the cache or removes them there. -/
def Frees : WorkCall → Buffer → Key → Prop
  | .release _ _ k, b, j => j = k ∧ k ∈ b.missed
  | .commit _ _ _, b, j => (b.pending.get? j).isSome ∨ j ∈ b.missed
  | .rollback _ _ _, b, j => j ∈ b.missed
  | _, _, _ => False

variable {σ : Type} (B : CacheOps σ)

/-- Whether a call ends the work of its unit. -/
def Ends : WorkCall → Prop
  | .commit _ _ _ | .rollback _ _ _ => True
  | .get _ _ _ | .put _ _ | .clear | .release _ _ _ => False

/-- Whether a call takes the lock of a key: a read that does not find it. -/
def Locks : WorkCall → Buffer × Gate × σ → Key → Prop
  | .get now h k, m, j =>
    j = k ∧ m.1.Asks k ∧ k ∉ m.2.1.held ∧ (B.get now h k m.2.2).1 = .ok none
  | _, _, _ => False

end WorkCall

section Gate

variable {σ : Type} (B : CacheOps σ)

theorem Buffer.mem_writes {b : Buffer} {k : Key} :
    k ∈ b.writes.map (·.1) ↔ (b.pending.get? k).isSome ∨ k ∈ b.missed := by
  rw [Buffer.writes, List.map_append, List.mem_append, List.map_map, ← Table.mem_keys_iff]
  have hmissed : k ∈ ((b.missed.filter fun k => !b.pending.contains k).map
      ((·.1) ∘ fun k => (k, Entry.absence))) ↔ k ∈ b.missed ∧ k ∉ b.pending.keys := by
    simp [Table.contains, Table.mem_keys_iff]
  rw [hmissed, Table.keys]
  by_cases hk : k ∈ b.pending.entries.map (·.1)
  · simp [hk]
  · simp [hk]

/-- Whether or not a put below succeeds, its key is unlocked. -/
theorem Buffer.mem_held_storeAll {h : Heap} {ws : List (Key × Entry)} {s : Gate × σ} {k : Key}
    (now : Instant) :
    k ∈ (storeAll (Gate.ops B) h now ws s).2.1.held ↔ k ∈ s.1.held ∧ k ∉ ws.map (·.1) := by
  induction ws generalizing now s with
  | nil => simp [storeAll]
  | cons w ws ih =>
    have hput : k ∈ ((Gate.ops B).put now h w.1 w.2 s).2.1.held ↔ k ∈ s.1.held ∧ k ≠ w.1 :=
      Gate.mem_held_unlock s.1 w.1 k
    have hrest := ih (s := ((Gate.ops B).put now h w.1 w.2 s).2) (now + 1)
    rw [hput, and_assoc] at hrest
    rw [storeAll, List.map_cons, List.mem_cons, not_or]
    dsimp only
    split <;> exact hrest

theorem Buffer.mem_held_removeAll {h : Heap} {ks : List Key} {now : Instant} {s : Gate × σ}
    {k : Key} :
    k ∈ (removeAll (Gate.ops B) h now ks s).1.held ↔ k ∈ s.1.held ∧ k ∉ ks := by
  induction ks generalizing now s with
  | nil => simp [removeAll]
  | cons j ks ih =>
    have hremove : k ∈ ((Gate.ops B).remove now h j s).2.2.1.held ↔ k ∈ s.1.held ∧ k ≠ j :=
      Gate.mem_held_unlock s.1 j k
    rw [removeAll, ih, hremove, and_assoc, List.mem_cons, not_or]

theorem Buffer.mem_held_commit {now : Instant} {h : Heap} {b : Buffer} {s : Gate × σ} {k : Key} :
    k ∈ (commit (Gate.ops B) now h b s).2.2.1.held ↔ k ∈ s.1.held ∧ k ∉ b.writes.map (·.1) := by
  have hclear : (if b.clearing then (Gate.ops B).clear now s else s).1 = s.1 := by
    split <;> rfl
  rw [commit, ← hclear]
  exact mem_held_storeAll B (now + 1)

variable {B}

/-- A read goes by the buffer alone, or the cache answers it without a change of the locks, or it
takes the lock and remembers the miss. -/
theorem Buffer.get_gate (now : Instant) (h : Heap) (k : Key) (b : Buffer) (s : Gate × σ) :
    let r := get (Gate.ops B) now h k b s
    (¬ WorkCall.Locks B (.get now h k) (b, s) k ∧ r.2.2.1 = b ∧ r.2.2.2.1 = s.1) ∨
    (WorkCall.Locks B (.get now h k) (b, s) k ∧ r.2.2.1 = b.miss k ∧ r.2.2.2.1 = s.1.lock k) := by
  intro r
  have hr : r = get (Gate.ops B) now h k b s := rfl
  rw [get] at hr
  cases hp : b.pending.get? k with
  | some e =>
    rw [hp] at hr
    refine .inl ⟨fun hl => ?_, by rw [hr], by rw [hr]⟩
    have hnone := hl.2.1.1
    rw [hp] at hnone
    cases hnone
  | none =>
    rw [hp] at hr
    by_cases hm : k ∈ b.missed
    · rw [if_pos hm] at hr
      exact .inl ⟨fun hl => hl.2.1.2 hm, by rw [hr], by rw [hr]⟩
    · rw [if_neg hm] at hr
      by_cases hk : k ∈ s.1.held
      · have hwait : (Gate.ops B).get now h k s = (.error (s.1.waitFault k (B.id s.2)), h, s) :=
          if_pos hk
        rw [hwait] at hr
        exact .inl ⟨fun hl => hl.2.2.1 hk, by rw [hr], by rw [hr]⟩
      · have hget : (Gate.ops B).get now h k s = Gate.get B now h k s := rfl
        rw [hget, Gate.get, if_neg hk] at hr
        rcases hB : B.get now h k s.2 with ⟨_ | _ | _, h', under⟩
        · rw [hB] at hr
          refine .inl ⟨fun hl => ?_, by rw [hr], by rw [hr]⟩
          have hres := hl.2.2.2
          rw [hB] at hres
          cases hres
        · rw [hB] at hr
          exact .inr ⟨⟨rfl, ⟨hp, hm⟩, hk, by rw [hB]⟩, by rw [hr], by rw [hr]⟩
        · rw [hB] at hr
          refine .inl ⟨fun hl => ?_, by rw [hr], by rw [hr]⟩
          have hres := hl.2.2.2
          rw [hB] at hres
          cases hres

namespace WorkCall

theorem locks_get_iff {now : Instant} {h : Heap} {k j : Key} {m : Buffer × Gate × σ} :
    Locks B (.get now h k) m j ↔ j = k ∧ Locks B (.get now h k) m k := by
  simp [Locks]

/-- The keys that are locked after a call. -/
theorem mem_held_run (c : WorkCall) (m : Buffer × Gate × σ) (j : Key) :
    j ∈ (c.run (Gate.ops B) m).2.1.held ↔
      (j ∈ m.2.1.held ∧ ¬ c.Frees m.1 j) ∨ c.Locks B m j := by
  cases c with
  | get now h k =>
    rw [locks_get_iff]
    rcases Buffer.get_gate (B := B) now h k m.1 m.2 with ⟨hl, -, hgate⟩ | ⟨hl, -, hgate⟩
    · change j ∈ (Buffer.get (Gate.ops B) now h k m.1 m.2).2.2.2.1.held ↔ _
      have hnot : ¬ Locks B (.get now h k) m k := hl
      simp [hgate, hnot, Frees]
    · change j ∈ (Buffer.get (Gate.ops B) now h k m.1 m.2).2.2.2.1.held ↔ _
      have hlock : Locks B (.get now h k) m k := hl
      simp [hgate, hlock, Frees, or_comm]
  | put k e => simp [run, Frees, Locks]
  | clear => simp [run, Frees, Locks]
  | release now h k =>
    rw [run, Buffer.release]
    by_cases hk : k ∈ m.1.missed
    · have hremove : j ∈ ((Gate.ops B).remove now h k m.2).2.2.1.held ↔ j ∈ m.2.1.held ∧ j ≠ k :=
        Gate.mem_held_unlock m.2.1 k j
      rw [if_pos hk]
      simp [hremove, Frees, Locks, hk]
    · rw [if_neg hk]
      simp [Frees, Locks, hk]
  | commit now h w =>
    have hw := w.reorders m.1
    rw [run, Buffer.mem_held_commit, Buffer.mem_writes, hw.get?, hw.mem_missed]
    simp [Frees, Locks]
  | rollback now h w =>
    rw [run, Buffer.rollback, Buffer.mem_held_removeAll, (w.reorders m.1).mem_missed]
    simp [Frees, Locks]

/-- The keys that the unit of work misses after its call. -/
theorem mem_missed_run (c : WorkCall) (m : Buffer × Gate × σ) (j : Key) :
    j ∈ (c.run (Gate.ops B) m).1.missed ↔
      (j ∈ m.1.missed ∧ ¬ c.Frees m.1 j) ∨ c.Locks B m j := by
  cases c with
  | get now h k =>
    rw [locks_get_iff]
    rcases Buffer.get_gate (B := B) now h k m.1 m.2 with ⟨hl, hb, -⟩ | ⟨hl, hb, -⟩
    · change j ∈ (Buffer.get (Gate.ops B) now h k m.1 m.2).2.2.1.missed ↔ _
      have hnot : ¬ Locks B (.get now h k) m k := hl
      simp [hb, hnot, Frees]
    · change j ∈ (Buffer.get (Gate.ops B) now h k m.1 m.2).2.2.1.missed ↔ _
      have hlock : Locks B (.get now h k) m k := hl
      have hmissed : k ∉ m.1.missed := hl.2.1.2
      simp [hb, hlock, Frees, Buffer.miss, hmissed, or_comm]
  | put k e => simp [run, Buffer.put, Frees, Locks]
  | clear => simp [run, Buffer.clear, Frees, Locks]
  | release now h k =>
    rw [run, Buffer.release]
    by_cases hk : k ∈ m.1.missed
    · rw [if_pos hk]
      simp [Frees, Locks, hk]
    · rw [if_neg hk]
      simp [Frees, Locks, hk]
  | commit now h w =>
    have hempty : (run (Gate.ops B) (.commit now h w) m).1 = .empty := rfl
    simp +contextual [hempty, Buffer.empty, Frees, Locks]
  | rollback now h w =>
    have hempty : (run (Gate.ops B) (.rollback now h w) m).1 = .empty := rfl
    simp [hempty, Buffer.empty, Frees, Locks]

end WorkCall

end Gate

/-- Units of work, each with its buffer, in front of one cache that locks keys. -/
structure Crew (σ : Type) where
  units : Nat → Buffer
  cache : Gate × σ

namespace Crew

variable {σ : Type}

/-- The locked keys. -/
def held (s : Crew σ) : List Key := s.cache.1.held

/-- The keys that a unit of work read and did not find, and has not given up. -/
def missed (s : Crew σ) (i : Nat) : List Key := (s.units i).missed

/-- New units of work in front of a cache with no key locked. -/
def start (timeout : Option Nat) (below : σ) : Crew σ :=
  ⟨fun _ => .empty, .ofTimeout timeout, below⟩

variable (B : CacheOps σ)

/-- One unit of work makes one call. -/
def step (i : Nat) (c : WorkCall) (s : Crew σ) : Crew σ :=
  let m := c.run (Gate.ops B) (s.units i, s.cache)
  ⟨Function.update s.units i m.1, m.2⟩

/-- The units of work and the cache after some calls, of which the latest is listed first. -/
def after (s : Crew σ) : List (Nat × WorkCall) → Crew σ
  | [] => s
  | (i, c) :: past => (after s past).step B i c

/-- The unit of work whose read took the lock of a key, the last time that it was taken. -/
def taker (s : Crew σ) : List (Nat × WorkCall) → Key → Option Nat
  | [], _ => none
  | (i, .get now h j) :: past, k =>
    if j = k ∧ k ∉ (after B s past).held ∧ k ∈ (after B s ((i, .get now h j) :: past)).held then some i
    else taker s past k
  | _ :: past, k => taker s past k

/-- Whether a unit of work is at rest: it has just committed or rolled back, or made no call yet. -/
def Ended : List (Nat × WorkCall) → Nat → Prop
  | [], _ => True
  | (j, c) :: past, i =>
    if j = i then c.Ends else Ended past i

variable {B} {s : Crew σ} {past : List (Nat × WorkCall)} {i : Nat} {c : WorkCall} {k : Key}

theorem mem_held_step :
    k ∈ (s.step B i c).held ↔
      (k ∈ s.held ∧ ¬ c.Frees (s.units i) k) ∨ c.Locks B (s.units i, s.cache) k :=
  c.mem_held_run (s.units i, s.cache) k

theorem mem_missed_step_self :
    k ∈ (s.step B i c).missed i ↔
      (k ∈ s.missed i ∧ ¬ c.Frees (s.units i) k) ∨ c.Locks B (s.units i, s.cache) k := by
  rw [missed, step]
  dsimp only
  rw [Function.update_self]
  exact c.mem_missed_run (s.units i, s.cache) k

theorem missed_step_of_ne {j : Nat} (hj : j ≠ i) : (s.step B i c).missed j = s.missed j := by
  rw [missed, step]
  dsimp only
  rw [Function.update_of_ne hj]
  rfl

/-- A call takes the lock of a key exactly if the key is locked after it and was not before. -/
theorem locks_iff :
    c.Locks B (s.units i, s.cache) k ↔ k ∉ s.held ∧ k ∈ (s.step B i c).held := by
  rw [mem_held_step]
  constructor
  · intro hl
    refine ⟨?_, .inr hl⟩
    cases c with
    | get now h j =>
      obtain ⟨rfl, -, hk, -⟩ := hl
      exact hk
    | _ => exact hl.elim
  · rintro ⟨hk, hheld | hl⟩
    · exact absurd hheld.1 hk
    · exact hl

theorem taker_of_locks (hl : c.Locks B ((after B s past).units i, (after B s past).cache) k) :
    taker B s ((i, c) :: past) k = some i := by
  have hk := locks_iff.1 hl
  cases c with
  | get now h j =>
    obtain rfl : k = j := hl.1
    exact if_pos ⟨rfl, hk⟩
  | _ => exact hl.elim

theorem taker_of_not_locks
    (hl : ¬ c.Locks B ((after B s past).units i, (after B s past).cache) k) :
    taker B s ((i, c) :: past) k = taker B s past k := by
  cases c with
  | get now h j => exact if_neg fun hk => hl (locks_iff.2 hk.2)
  | _ => rfl

/-- Whoever took the lock of a locked key still misses the key. -/
theorem exists_taker {timeout : Option Nat} {below : σ} (past : List (Nat × WorkCall))
    (hk : k ∈ (after B (start timeout below) past).held) :
    ∃ i, taker B (start timeout below) past k = some i ∧
      k ∈ (after B (start timeout below) past).missed i := by
  induction past with
  | nil => exact absurd hk (List.not_mem_nil)
  | cons e past ih =>
    obtain ⟨i, c⟩ := e
    rcases mem_held_step.1 hk with ⟨hheld, hkept⟩ | hl
    · obtain ⟨j, htaker, hmissed⟩ := ih hheld
      refine ⟨j, ?_, ?_⟩
      · rw [taker_of_not_locks fun hl => (locks_iff.1 hl).1 hheld]
        exact htaker
      · by_cases hj : j = i
        · subst hj
          exact mem_missed_step_self.2 (.inl ⟨hmissed, hkept⟩)
        · rw [after, missed_step_of_ne hj]
          exact hmissed
    · exact ⟨i, taker_of_locks hl, mem_missed_step_self.2 (.inr hl)⟩

/-- A unit of work at rest has an empty buffer. -/
theorem units_of_ended {timeout : Option Nat} {below : σ} {past : List (Nat × WorkCall)} {i : Nat}
    (hi : Ended past i) : (after B (start timeout below) past).units i = .empty := by
  induction past with
  | nil => rfl
  | cons e past ih =>
    obtain ⟨j, c⟩ := e
    rw [Ended] at hi
    rw [after, step]
    dsimp only
    by_cases hj : j = i
    · subst hj
      rw [if_pos rfl] at hi
      rw [Function.update_self]
      cases c with
      | commit now h w => rfl
      | rollback now h w => rfl
      | get now h k => exact hi.elim
      | put k e => exact hi.elim
      | clear => exact hi.elim
      | release now h k => exact hi.elim
    · rw [if_neg hj] at hi
      rw [Function.update_of_ne (Ne.symm hj)]
      exact ih hi

/-- No lock leaks and nobody waits for itself, whatever the cache below answers. A locked key was
locked by the read of a unit of work that still misses it; so a unit of work that holds the lock of a
key never goes to the cache to read the key; and when all units of work are at rest, no key is
locked. -/
theorem locks_accounted_for (B : CacheOps σ) (timeout : Option Nat) (below : σ)
    (past : List (Nat × WorkCall)) :
    let s := after B (start timeout below) past
    (∀ k ∈ s.held, ∃ i, taker B (start timeout below) past k = some i ∧ k ∈ s.missed i) ∧
    (∀ k ∈ s.held, ∀ i, taker B (start timeout below) past k = some i → ¬ (s.units i).Asks k ∧
      ∀ (ρ : Type) (C : CacheOps ρ) (now : Instant) (h : Heap) (c : ρ),
        Buffer.get C now h k (s.units i) c =
          (.ok ((s.units i).pending.get? k), h, s.units i, c)) ∧
    ((∀ i, Ended past i) → s.held = []) := by
  intro s
  have htaker : ∀ k ∈ s.held, ∃ i, taker B (start timeout below) past k = some i ∧
      k ∈ s.missed i := fun k hk => exists_taker past hk
  refine ⟨htaker, fun k hk i hi => ?_, fun hended => ?_⟩
  · obtain ⟨j, hj, hmissed⟩ := htaker k hk
    obtain rfl : j = i := Option.some.inj (hj.symm.trans hi)
    refine ⟨fun hasks => hasks.2 hmissed, fun ρ C now h c => ?_⟩
    rw [Buffer.get]
    cases (s.units j).pending.get? k with
    | some e => rfl
    | none => exact if_pos hmissed
  · refine List.eq_nil_iff_forall_not_mem.2 fun k hk => ?_
    obtain ⟨i, -, hmissed⟩ := htaker k hk
    have hempty : s.units i = .empty := units_of_ended (hended i)
    rw [missed, hempty] at hmissed
    exact List.not_mem_nil hmissed

end Crew

end ResultCache
