/-!
# Finite tables

A `Table κ α` is a finite map without an order that anyone may rely on: the contents of a store,
the writes a unit of work holds back, the caches of a pool. It is a list of pairs in which no key
occurs twice, so its length is the number of keys it holds.

Main facts: `get?_insert_self`, `get?_insert_of_ne`, `get?_erase_self` and `get?_erase_of_ne`
describe every table through `get?`, and `mem_keys_iff` says that the keys are exactly where
`get?` answers.
-/
namespace ResultCache

universe u v

structure Table (κ : Type u) (α : Type v) where
  entries : List (κ × α)
  nodup : (entries.map (·.1)).Nodup

namespace Table

variable {κ : Type u} {α : Type v}

def empty : Table κ α := ⟨[], .nil⟩

instance : Inhabited (Table κ α) := ⟨empty⟩

/-- How many keys the table holds. -/
def size (t : Table κ α) : Nat := t.entries.length

def keys (t : Table κ α) : List κ := t.entries.map (·.1)

theorem ext_entries {s t : Table κ α} (h : s.entries = t.entries) : s = t := by
  cases s; cases t; cases h; rfl

variable [DecidableEq κ]

def find (k : κ) : List (κ × α) → Option α
  | [] => none
  | (j, a) :: rest => if j = k then some a else find k rest

/-- Overwrites the pair of a key in its place, or adds a pair at the end. -/
def place (k : κ) (a : α) : List (κ × α) → List (κ × α)
  | [] => [(k, a)]
  | (j, b) :: rest => if j = k then (k, a) :: rest else (j, b) :: place k a rest

/-- Leaves out the pairs of a key. -/
def omitting (k : κ) (l : List (κ × α)) : List (κ × α) := l.filter (fun p => p.1 ≠ k)

theorem mem_map_place {k j : κ} {a : α} {l : List (κ × α)} :
    j ∈ (place k a l).map (·.1) ↔ j = k ∨ j ∈ l.map (·.1) := by
  induction l with
  | nil => simp [place]
  | cons q rest ih =>
    obtain ⟨i, b⟩ := q
    rw [place]
    split
    · rename_i h
      subst h
      simp
    · simp only [List.map_cons, List.mem_cons, ih]
      grind

theorem nodup_place {k : κ} {a : α} {l : List (κ × α)} (h : (l.map (·.1)).Nodup) :
    ((place k a l).map (·.1)).Nodup := by
  induction l with
  | nil => simp [place]
  | cons q rest ih =>
    obtain ⟨j, b⟩ := q
    have hq := List.nodup_cons.1 h
    rw [place]
    split
    · rename_i hj
      subst hj
      exact List.nodup_cons.2 hq
    · rename_i hj
      refine List.nodup_cons.2 ⟨fun hm => ?_, ih hq.2⟩
      rcases mem_map_place.1 hm with hm | hm
      · exact hj hm
      · exact hq.1 hm

theorem nodup_omitting {k : κ} {l : List (κ × α)} (h : (l.map (·.1)).Nodup) :
    ((omitting k l).map (·.1)).Nodup :=
  h.sublist (List.filter_sublist.map _)

theorem find_place_self (k : κ) (a : α) (l : List (κ × α)) : find k (place k a l) = some a := by
  induction l with
  | nil => simp [place, find]
  | cons q rest ih =>
    rw [place]
    split
    · simp [find]
    · rename_i h
      simp [find, h, ih]

theorem find_place_of_ne {k j : κ} (a : α) (l : List (κ × α)) (h : j ≠ k) :
    find j (place k a l) = find j l := by
  induction l with
  | nil => simp [place, find, Ne.symm h]
  | cons q rest ih =>
    rw [place]
    split
    · rename_i hq
      obtain ⟨i, b⟩ := q
      subst hq
      simp [find, Ne.symm h]
    · simp [find, ih]

theorem find_omitting_self (k : κ) (l : List (κ × α)) : find k (omitting k l) = none := by
  induction l with
  | nil => rfl
  | cons q rest ih =>
    by_cases h : q.1 = k
    · simpa [omitting, h] using ih
    · simpa [omitting, h, find] using ih

theorem find_omitting_of_ne {k j : κ} (l : List (κ × α)) (h : j ≠ k) :
    find j (omitting k l) = find j l := by
  induction l with
  | nil => rfl
  | cons q rest ih =>
    by_cases hq : q.1 = k
    · simpa [omitting, hq, find, Ne.symm h] using ih
    · by_cases hj : q.1 = j
      · simp [omitting, hj, find, h]
      · simpa [omitting, hq, hj, find] using ih

theorem isSome_find_iff {k : κ} {l : List (κ × α)} : (find k l).isSome ↔ k ∈ l.map (·.1) := by
  induction l with
  | nil => simp [find]
  | cons q rest ih =>
    by_cases h : q.1 = k
    · simp [find, h]
    · simp only [find, h, if_false, ih, List.map_cons, List.mem_cons]
      grind

def get? (t : Table κ α) (k : κ) : Option α := find k t.entries

def contains (t : Table κ α) (k : κ) : Bool := (t.get? k).isSome

def insert (t : Table κ α) (k : κ) (a : α) : Table κ α := ⟨place k a t.entries, nodup_place t.nodup⟩

def erase (t : Table κ α) (k : κ) : Table κ α := ⟨omitting k t.entries, nodup_omitting t.nodup⟩

@[simp] theorem get?_empty (k : κ) : (empty : Table κ α).get? k = none := rfl

@[simp] theorem get?_insert_self (t : Table κ α) (k : κ) (a : α) :
    (t.insert k a).get? k = some a := find_place_self k a t.entries

theorem get?_insert_of_ne (t : Table κ α) {k j : κ} (a : α) (h : j ≠ k) :
    (t.insert k a).get? j = t.get? j := find_place_of_ne a t.entries h

@[simp] theorem get?_erase_self (t : Table κ α) (k : κ) : (t.erase k).get? k = none :=
  find_omitting_self k t.entries

theorem get?_erase_of_ne (t : Table κ α) {k j : κ} (h : j ≠ k) :
    (t.erase k).get? j = t.get? j := find_omitting_of_ne t.entries h

theorem mem_keys_iff {t : Table κ α} {k : κ} : k ∈ t.keys ↔ (t.get? k).isSome :=
  isSome_find_iff.symm

end Table
end ResultCache
