import ResultCache.Proofs.Cache.Locks

/-!
# Whose locks they are

A lock is meant to be given back by the unit of work that took it (`Owned`). That fails if a unit of
work commits a put for a key that it has not missed itself, while another unit of work misses the
key: it read the key when the cache held it, its own pending clear hid what the cache held, and the
cache has lost the entry since. Nothing else can make it fail (`owned_iff_apart`), and as long as it
does not happen a key is missed by one unit of work at a time (`Apart.taker_of_missed`).
-/
namespace ResultCache

/-- Whether a call publishes a put for a key that its unit of work has not missed. -/
def WorkCall.Intrudes : WorkCall → Buffer → Key → Prop
  | .commit _ _ _, b, k => (b.pending.get? k).isSome ∧ k ∉ b.missed
  | _, _, _ => False

theorem WorkCall.frees_iff (c : WorkCall) (b : Buffer) (k : Key) :
    c.Frees b k ↔ c.Intrudes b k ∨ (c.Frees b k ∧ k ∈ b.missed) := by
  cases c with
  | commit now h w =>
    by_cases hk : k ∈ b.missed
    · simp [Frees, Intrudes, hk]
    · simp [Frees, Intrudes, hk]
  | release now h j =>
    simp only [Frees, Intrudes, false_or, and_assoc]
    constructor
    · rintro ⟨rfl, hj⟩
      exact ⟨rfl, hj, hj⟩
    · rintro ⟨rfl, hj, -⟩
      exact ⟨rfl, hj⟩
  | rollback now h w => simp [Frees, Intrudes]
  | get now h j => simp [Frees, Intrudes]
  | put j e => simp [Frees, Intrudes]
  | clear => simp [Frees, Intrudes]

namespace Crew

variable {σ : Type} (B : CacheOps σ)

/-- Every lock that was given back was given back by whoever took it. -/
def Owned (s : Crew σ) : List (Nat × WorkCall) → Prop
  | [] => True
  | (i, c) :: past => Owned s past ∧ ∀ k ∈ (after B s past).held,
      k ∉ (after B s ((i, c) :: past)).held → taker B s past k = some i

/-- Nobody published a put for a key that it had not missed and somebody else missed. -/
def Apart (s : Crew σ) : List (Nat × WorkCall) → Prop
  | [] => True
  | (i, c) :: past => Apart s past ∧ ∀ k j, c.Intrudes ((after B s past).units i) k → j ≠ i →
      k ∉ (after B s past).missed j

variable {B} {timeout : Option Nat} {below : σ} {past : List (Nat × WorkCall)}

/-- As long as nobody intrudes, a key that a unit of work misses is locked and the lock is its own. -/
theorem Apart.taker_of_missed (hpast : Apart B (start timeout below) past) {i : Nat} {k : Key}
    (hk : k ∈ (after B (start timeout below) past).missed i) :
    k ∈ (after B (start timeout below) past).held ∧
      taker B (start timeout below) past k = some i := by
  induction past generalizing i k with
  | nil => exact absurd hk List.not_mem_nil
  | cons e past ih =>
    obtain ⟨j, c⟩ := e
    obtain ⟨hapart, hintrudes⟩ := hpast
    have hown := fun (l : Nat) (m : Key) => ih hapart (i := l) (k := m)
    -- a key that stays missed stays locked, and its lock was taken before
    have hkept : k ∈ (after B (start timeout below) past).missed i →
        ¬ c.Frees ((after B (start timeout below) past).units j) k →
        k ∈ (after B (start timeout below) ((j, c) :: past)).held ∧
          taker B (start timeout below) ((j, c) :: past) k = some i := by
      intro hmissed hfrees
      obtain ⟨hheld, htaker⟩ := hown i k hmissed
      refine ⟨mem_held_step.2 (.inl ⟨hheld, hfrees⟩), ?_⟩
      rw [taker_of_not_locks fun hl => (locks_iff.1 hl).1 hheld]
      exact htaker
    by_cases hij : i = j
    · subst hij
      rcases mem_missed_step_self.1 hk with ⟨hmissed, hfrees⟩ | hl
      · exact hkept hmissed hfrees
      · exact ⟨mem_held_step.2 (.inr hl), taker_of_locks hl⟩
    · rw [after, missed_step_of_ne hij] at hk
      refine hkept hk fun hfrees => ?_
      rcases (WorkCall.frees_iff c _ k).1 hfrees with hin | ⟨-, hmissed⟩
      · exact hintrudes k i hin hij hk
      · have hj := (hown j k hmissed).2
        rw [(hown i k hk).2] at hj
        exact hij (Option.some.inj hj)

/-- Locks are owned exactly as long as nobody intrudes. -/
theorem owned_iff_apart : Owned B (start timeout below) past ↔ Apart B (start timeout below) past := by
  induction past with
  | nil => exact Iff.rfl
  | cons e past ih =>
    obtain ⟨i, c⟩ := e
    rw [Owned, Apart, ih]
    refine and_congr_right fun hapart => ⟨fun howned k j hin hj hmissed => ?_,
      fun hintrudes k hheld hgone => ?_⟩
    · obtain ⟨hheld, htaker⟩ := hapart.taker_of_missed hmissed
      have hfrees := (WorkCall.frees_iff c _ k).2 (.inl hin)
      have hgone : k ∉ (after B (start timeout below) ((i, c) :: past)).held := by
        intro hafter
        rcases mem_held_step.1 hafter with ⟨-, hnot⟩ | hl
        · exact hnot hfrees
        · exact (locks_iff.1 hl).1 hheld
      rw [howned k hheld hgone] at htaker
      exact hj (Option.some.inj htaker).symm
    · have hfrees : c.Frees ((after B (start timeout below) past).units i) k :=
        Classical.byContradiction fun hnot => hgone (mem_held_step.2 (.inl ⟨hheld, hnot⟩))
      rcases (WorkCall.frees_iff c _ k).1 hfrees with hin | ⟨-, hmissed⟩
      · obtain ⟨j, htaker, hmissed⟩ := exists_taker past hheld
        by_cases hj : j = i
        · rw [← hj]
          exact htaker
        · exact absurd hmissed (hintrudes k j hin hj)
      · exact (hapart.taker_of_missed hmissed).2

end Crew

end ResultCache
