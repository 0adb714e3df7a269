import Mathlib.Algebra.BigOperators.Ring.List
import Mathlib.Data.List.Induction
import Mathlib.Tactic.Linarith
import Mathlib.Tactic.Ring
import ResultCache.Key
import ResultCache.Table

/-!
# Keys are their components

A key is made by appending values in groups of any size (`Key.Making`), each frozen with what objects
are like at that moment. Its number, checksum and hash are kept up to date with every append, but
all three come out as functions of the list of components alone (`Key.ofComponents_eq`); the hash is
a polynomial in 37 with the place of each component as a weight, taken modulo `2 ^ 64`.

So keys are equal exactly if their components are, and equal keys hash alike. A hash map, which
looks at the hash of a key before it compares keys, finds under a key what was last stored under the
same components (`Key.compares_by_components`).
-/
namespace ResultCache.Key

/-- A way to make a key. -/
inductive Making where
  | new
  | ofValues (vs : List (Heap × Value))
  | update (m : Making) (h : Heap) (v : Value)
  | updateAll (m : Making) (vs : List (Heap × Value))

namespace Making

/-- Values frozen one after the other, each with what objects are like at its turn. -/
def frozenAll (vs : List (Heap × Value)) : List Frozen := vs.map fun p => p.1.freeze p.2

def key (H : ComponentHash) : Making → Key
  | new => .empty
  | ofValues vs => .ofComponents H (frozenAll vs)
  | update m h v => (m.key H).append H (h.freeze v)
  | updateAll m vs => (m.key H).appendAll H (frozenAll vs)

/-- Everything that was appended, in order. -/
def components : Making → List Frozen
  | new => []
  | ofValues vs => frozenAll vs
  | update m h v => m.components ++ [h.freeze v]
  | updateAll m vs => m.components ++ frozenAll vs

end Making

variable (H : ComponentHash)

/-- The sum of the hashes. -/
def checksumOf (cs : List Frozen) : Int64 := .ofInt (cs.map fun c => (H.hash c).toInt).sum

/-- `17 * 37 ^ n` for `n` components, and for the `i`-th of them, from one, its own hash times
`i * 37 ^ (n - i)`. -/
def weightedSum (cs : List Frozen) : Int :=
  37 ^ cs.length * 17 +
    ((cs.zipIdx 1).map fun p => 37 ^ (cs.length - p.2) * p.2 * (H.hash p.1).toInt).sum

theorem checksumOf_append (cs : List Frozen) (c : Frozen) :
    checksumOf H (cs ++ [c]) = checksumOf H cs + H.hash c := by
  simp [checksumOf, Int64.ofInt_add]

theorem weightedSum_append (cs : List Frozen) (c : Frozen) :
    weightedSum H (cs ++ [c]) = 37 * weightedSum H cs + (H.hash c).toInt * ((cs.length + 1 : Nat) : Int) := by
  -- the components before the new one move up by one power
  have hearlier : (cs.zipIdx 1).map
      (fun p => 37 ^ (cs.length + 1 - p.2) * (p.2 : Int) * (H.hash p.1).toInt) =
      (cs.zipIdx 1).map
        (fun p => 37 * (37 ^ (cs.length - p.2) * (p.2 : Int) * (H.hash p.1).toInt)) := by
    refine List.map_congr_left fun p hp => ?_
    have hle : p.2 ≤ cs.length := by
      have hlt := List.snd_lt_add_of_mem_zipIdx hp
      omega
    rw [Nat.succ_sub hle, pow_succ]
    ring
  have hlast : [c].zipIdx (1 + cs.length) = [(c, cs.length + 1)] := by simp [Nat.add_comm]
  rw [weightedSum, weightedSum, List.length_append, List.length_singleton, List.zipIdx_append,
    List.map_append, List.sum_append, hearlier, hlast, List.sum_map_mul_left]
  simp only [List.map_cons, List.map_nil, List.sum_cons, List.sum_nil, Nat.sub_self]
  ring

/-- All that a key holds follows from its components. -/
theorem ofComponents_eq (cs : List Frozen) :
    ofComponents H cs = ⟨.ofInt (weightedSum H cs), checksumOf H cs, cs.length, cs⟩ := by
  induction cs using List.reverseRecOn with
  | nil => rfl
  | append_singleton cs c ih =>
    rw [← ofComponents_append, ih]
    change append H _ c = _
    rw [append, weightedSum_append, checksumOf_append, Int64.ofInt_add, Int64.ofInt_mul,
      Int64.ofInt_mul, Int64.ofInt_toInt, Int64.ofInt_eq_ofNat, List.length_append]
    rfl

/-- It makes no difference how the appends were grouped. -/
theorem Making.key_eq (m : Making) : m.key H = ofComponents H m.components := by
  induction m with
  | new => rfl
  | ofValues vs => rfl
  | update m h v ih =>
    rw [key, ih, components, ← ofComponents_append]
    rfl
  | updateAll m vs ih => rw [key, ih, components, ofComponents_append]

/-- A change of a map: something is stored under a key, or what is stored there is taken out. -/
abbrev Change (α : Type) := Making × Option α

variable {α : Type}

/-- A hash map after some changes, the latest first. -/
def hashMap : List (Change α) → Std.HashMap Key α
  | [] => ∅
  | (m, some a) :: past => (hashMap past).insert (m.key H) a
  | (m, none) :: past => (hashMap past).erase (m.key H)

/-- A table after the same changes. -/
def table : List (Change α) → Table Key α
  | [] => .empty
  | (m, some a) :: past => (table past).insert (m.key H) a
  | (m, none) :: past => (table past).erase (m.key H)

/-- What the latest change under these components left there. -/
def latest : List (Change α) → List Frozen → Option α
  | [], _ => none
  | (m, a) :: past, cs => if m.components = cs then a else latest past cs

variable {H} {a b : Making}

theorem Making.key_inj : a.key H = b.key H ↔ a.components = b.components := by
  rw [key_eq, key_eq]
  refine ⟨fun he => ?_, fun he => by rw [he]⟩
  have hc := congrArg Key.components he
  rw [ofComponents_eq, ofComponents_eq] at hc
  exact hc

theorem getElem?_hashMap (past : List (Change α)) (m : Making) :
    (hashMap H past)[m.key H]? = latest past m.components := by
  induction past with
  | nil => simp [hashMap, latest]
  | cons c past ih =>
    obtain ⟨j, _ | v⟩ := c
    · simp [hashMap, latest, Std.HashMap.getElem?_erase, Making.key_inj, ih]
    · simp [hashMap, latest, Std.HashMap.getElem?_insert, Making.key_inj, ih]

theorem get?_table (past : List (Change α)) (m : Making) :
    (table H past).get? (m.key H) = latest past m.components := by
  induction past with
  | nil => simp [table, latest]
  | cons c past ih =>
    obtain ⟨j, v⟩ := c
    by_cases hj : j.components = m.components
    · have hkey : j.key H = m.key H := Making.key_inj.2 hj
      cases v <;> simp [table, latest, hj, hkey]
    · have hkey : m.key H ≠ j.key H := fun he => hj (Making.key_inj.1 he).symm
      cases v with
      | none => simp [table, latest, hj, Table.get?_erase_of_ne _ hkey, ih]
      | some v => simp [table, latest, hj, Table.get?_insert_of_ne _ _ hkey, ih]

/-- However two keys were made, what they hold follows from their components, they are equal exactly
if their components are, and what is stored under the one is found under the other exactly then. -/
theorem compares_by_components (H : ComponentHash) (a b : Making) :
    a.key H = ⟨.ofInt (weightedSum H a.components), checksumOf H a.components,
      a.components.length, a.components⟩ ∧
    (a.key H = b.key H ↔ a.components = b.components) ∧
    (a.components = b.components → hash (a.key H) = hash (b.key H)) ∧
    ∀ (α : Type) (past : List (Change α)),
      (hashMap H past)[a.key H]? = latest past a.components ∧
      (table H past).get? (a.key H) = latest past a.components := by
  refine ⟨?_, Making.key_inj, fun he => ?_, fun α past =>
    ⟨getElem?_hashMap past a, get?_table past a⟩⟩
  · rw [a.key_eq, ofComponents_eq]
  · rw [Making.key_inj.2 he]

end ResultCache.Key
