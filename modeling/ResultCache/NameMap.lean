/-!
# Maps keyed by name

A row, the properties of an object and the settings of a cache are finite maps from names. A
`NameMap` keeps its pairs in strictly increasing order of name, so two maps with the same pairs
are the same map, and whoever walks a map meets the names in order (code point order, which is
also the order of the names' UTF-8 bytes).

Main facts: `get?_insert_self` and `get?_insert_of_ne` say what a map holds after an insertion,
`entries_insert_sorted` says why an insertion keeps the order, and `ext_entries` says that the
pairs determine the map.
-/
namespace ResultCache

universe u v

/-- A finite map from names, in strictly increasing order of name. -/
structure NameMap (α : Type u) where
  entries : List (String × α)
  sorted : entries.Pairwise (fun a b => a.1 < b.1)

namespace NameMap

variable {α : Type u} {β : Type v}

def empty : NameMap α := ⟨[], .nil⟩

instance : Inhabited (NameMap α) := ⟨empty⟩

theorem ext_entries {m n : NameMap α} (h : m.entries = n.entries) : m = n := by
  cases m; cases n; cases h; rfl

instance [DecidableEq α] : DecidableEq (NameMap α) := fun m n =>
  decidable_of_iff (m.entries = n.entries) ⟨ext_entries, fun h => h ▸ rfl⟩

/-- The value of the first pair that carries `name`. -/
def find (name : String) : List (String × α) → Option α
  | [] => none
  | (m, a) :: rest => if m = name then some a else find name rest

/-- Puts a pair where the order wants it; a pair of the same name gives way. -/
def place (name : String) (a : α) : List (String × α) → List (String × α)
  | [] => [(name, a)]
  | (m, b) :: rest =>
    if name < m then (name, a) :: (m, b) :: rest
    else if name = m then (name, a) :: rest
    else (m, b) :: place name a rest

theorem mem_place {name : String} {a : α} {p : String × α} {l : List (String × α)}
    (h : p ∈ place name a l) : p = (name, a) ∨ p ∈ l := by
  induction l with
  | nil => simpa [place] using h
  | cons q rest ih =>
    obtain ⟨m, b⟩ := q
    rw [place] at h
    split at h
    · simpa using h
    · split at h
      · rcases List.mem_cons.1 h with h | h
        · exact .inl h
        · exact .inr (List.mem_cons_of_mem _ h)
      · rcases List.mem_cons.1 h with h | h
        · exact .inr (h ▸ List.mem_cons_self)
        · exact (ih h).imp id (List.mem_cons_of_mem _)

/-- Placing a pair keeps the names strictly increasing. -/
theorem entries_insert_sorted {name : String} {a : α} {l : List (String × α)}
    (h : l.Pairwise (fun a b => a.1 < b.1)) :
    (place name a l).Pairwise (fun a b => a.1 < b.1) := by
  induction l with
  | nil => simp [place]
  | cons q rest ih =>
    obtain ⟨m, b⟩ := q
    have hq := List.pairwise_cons.1 h
    rw [place]
    split
    · rename_i hlt
      refine List.pairwise_cons.2 ⟨fun p hp => ?_, h⟩
      rcases List.mem_cons.1 hp with hp | hp
      · exact hp ▸ hlt
      · exact String.lt_trans hlt (hq.1 p hp)
    · split
      · rename_i _ heq
        subst heq
        exact List.pairwise_cons.2 ⟨hq.1, hq.2⟩
      · rename_i hnlt hne
        refine List.pairwise_cons.2 ⟨fun p hp => ?_, ih hq.2⟩
        rcases mem_place hp with hp | hp
        · rcases Std.lt_trichotomy name m with hc | hc | hc
          · exact absurd hc hnlt
          · exact absurd hc hne
          · exact hp ▸ hc
        · exact hq.1 p hp

theorem find_place_self (name : String) (a : α) (l : List (String × α)) :
    find name (place name a l) = some a := by
  induction l with
  | nil => simp [place, find]
  | cons q rest ih =>
    obtain ⟨m, b⟩ := q
    rw [place]
    split
    · simp [find]
    · split
      · simp [find]
      · rename_i hne
        rw [find, if_neg (Ne.symm hne), ih]

theorem find_place_of_ne {name other : String} (a : α) (l : List (String × α))
    (h : other ≠ name) : find other (place name a l) = find other l := by
  induction l with
  | nil => simp [place, find, Ne.symm h]
  | cons q rest ih =>
    obtain ⟨m, b⟩ := q
    rw [place]
    split
    · simp [find, Ne.symm h]
    · split
      · rename_i heq
        subst heq
        simp [find, Ne.symm h]
      · simp [find, ih]

/-- The value under a name, if the map has one. -/
def get? (m : NameMap α) (name : String) : Option α := find name m.entries

def contains (m : NameMap α) (name : String) : Bool := (m.get? name).isSome

/-- Sets the value under a name, over any that was there. -/
def insert (m : NameMap α) (name : String) (a : α) : NameMap α :=
  ⟨place name a m.entries, entries_insert_sorted m.sorted⟩

@[simp] theorem get?_empty (name : String) : (empty : NameMap α).get? name = none := rfl

@[simp] theorem get?_insert_self (m : NameMap α) (name : String) (a : α) :
    (m.insert name a).get? name = some a := find_place_self name a m.entries

theorem get?_insert_of_ne (m : NameMap α) {name other : String} (a : α) (h : other ≠ name) :
    (m.insert name a).get? other = m.get? other := find_place_of_ne a m.entries h

/-- The map of a list of pairs; of two pairs with one name the later counts. -/
def ofList (pairs : List (String × α)) : NameMap α :=
  pairs.foldl (fun m p => m.insert p.1 p.2) empty

def size (m : NameMap α) : Nat := m.entries.length

end NameMap
end ResultCache
