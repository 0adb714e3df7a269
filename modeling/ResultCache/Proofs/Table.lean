import ResultCache.Table

/-!
# The order of a table's pairs

No key occurs twice in a table, so what it answers depends on its pairs and not on their order
(`find_perm`), and pairs put one after the other into a table are found there (`get?_insertAll`).
-/
namespace ResultCache.Table

universe u v

variable {κ : Type u} {α : Type v} [DecidableEq κ]

theorem find_eq_none_iff {k : κ} {l : List (κ × α)} : find k l = none ↔ k ∉ l.map (·.1) := by
  rw [← isSome_find_iff]
  cases find k l <;> simp

theorem find_eq_some_iff {k : κ} {a : α} {l : List (κ × α)} (hl : (l.map (·.1)).Nodup) :
    find k l = some a ↔ (k, a) ∈ l := by
  induction l with
  | nil => simp [find]
  | cons q rest ih =>
    obtain ⟨j, b⟩ := q
    obtain ⟨hj, hrest⟩ := List.nodup_cons.1 hl
    rw [find]
    by_cases h : j = k
    · subst h
      rw [if_pos rfl]
      refine ⟨fun he => by simp_all, fun hm => ?_⟩
      rcases List.mem_cons.1 hm with hm | hm
      · cases hm
        rfl
      · exact absurd (List.mem_map_of_mem hm) hj
    · rw [if_neg h, ih hrest]
      refine ⟨List.mem_cons_of_mem _, fun hm => ?_⟩
      rcases List.mem_cons.1 hm with hm | hm
      · cases hm
        exact absurd rfl h
      · exact hm

/-- Two orders of the same pairs answer alike. -/
theorem find_perm {l l' : List (κ × α)} (hp : l.Perm l') (hl : (l.map (·.1)).Nodup) (k : κ) :
    find k l = find k l' := by
  have hl' : (l'.map (·.1)).Nodup := (hp.map _).nodup_iff.1 hl
  apply Option.ext
  intro a
  rw [find_eq_some_iff hl, find_eq_some_iff hl']
  exact hp.mem_iff

theorem find_append (k : κ) (l m : List (κ × α)) : find k (l ++ m) = (find k l).or (find k m) := by
  induction l with
  | nil => rfl
  | cons q rest ih =>
    rw [List.cons_append, find, find]
    split
    · rfl
    · exact ih

theorem find_map_const (k : κ) (a : α) (l : List κ) :
    find k (l.map fun j => (j, a)) = if k ∈ l then some a else none := by
  induction l with
  | nil => rfl
  | cons j rest ih =>
    rw [List.map_cons, find, ih]
    by_cases h : j = k
    · simp [h]
    · simp [h, Ne.symm h]

/-- Taking out a key that is not there changes nothing. -/
theorem erase_of_get?_none {t : Table κ α} {k : κ} (hk : t.get? k = none) : t.erase k = t := by
  apply ext_entries
  have hm : k ∉ t.entries.map (·.1) := find_eq_none_iff.1 hk
  refine List.filter_eq_self.2 fun p hp => ?_
  have hne : p.1 ≠ k := fun he => hm (he ▸ List.mem_map_of_mem hp)
  simpa using hne

theorem erase_insert_empty (k : κ) (a : α) : ((empty : Table κ α).insert k a).erase k = empty := by
  apply ext_entries
  simp [erase, insert, empty, place, omitting]

theorem contains_insert (t : Table κ α) (k : κ) (a : α) (j : κ) :
    (t.insert k a).contains j = true ↔ j = k ∨ t.contains j = true := by
  by_cases hj : j = k
  · simp [hj, contains]
  · simp [hj, contains, get?_insert_of_ne _ _ hj]

theorem contains_erase (t : Table κ α) (k j : κ) :
    (t.erase k).contains j = true ↔ j ≠ k ∧ t.contains j = true := by
  by_cases hj : j = k
  · simp [hj, contains]
  · simp [hj, contains, get?_erase_of_ne _ hj]

/-- A table with more pairs, put one after the other. -/
def insertAll (t : Table κ α) (l : List (κ × α)) : Table κ α :=
  l.foldl (fun t p => t.insert p.1 p.2) t

theorem get?_insertAll (t : Table κ α) {l : List (κ × α)} (hl : (l.map (·.1)).Nodup) (k : κ) :
    (t.insertAll l).get? k = (find k l).or (t.get? k) := by
  induction l generalizing t with
  | nil => rfl
  | cons q rest ih =>
    obtain ⟨hq, hrest⟩ := List.nodup_cons.1 hl
    have hcons : t.insertAll (q :: rest) = (t.insert q.1 q.2).insertAll rest := rfl
    rw [hcons, ih _ hrest, find]
    by_cases h : q.1 = k
    · subst h
      rw [if_pos rfl, find_eq_none_iff.2 hq, get?_insert_self]
      rfl
    · rw [if_neg h, get?_insert_of_ne _ _ (Ne.symm h)]

end ResultCache.Table
