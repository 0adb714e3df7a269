import ResultCache.Buffers
import ResultCache.Proofs.Table

/-!
# Walks through buffers

A unit of work that ends walks through what its buffers hold in an order that nobody knows. What a
buffer in another order answers, lists and writes is the same (`Buffer.Reordered.get?`,
`Buffer.Reordered.mem_missed`, `Buffer.Reordered.pair_mem_writes`), and of many buffers each is still
found under its name (`Buffers.Reordered.of_get?`).
-/
namespace ResultCache

namespace Buffer

/-- What a commit writes: the puts, and the absence of every other missed key. -/
theorem pair_mem_writes {b : Buffer} {k : Key} {e : Entry} :
    (k, e) ∈ b.writes ↔ b.pending.get? k = some e ∨
      (b.pending.get? k = none ∧ k ∈ b.missed ∧ e = .absence) := by
  have habsent : (k, e) ∈ ((b.missed.filter fun k => !b.pending.contains k).map fun k =>
      (k, Entry.absence)) ↔ b.pending.get? k = none ∧ k ∈ b.missed ∧ e = .absence := by
    simp only [List.mem_map, List.mem_filter, Table.contains, Prod.mk.injEq, Bool.not_eq_true',
      Option.isSome_eq_false_iff, Option.isNone_iff_eq_none]
    constructor
    · rintro ⟨j, ⟨hmissed, hnone⟩, rfl, rfl⟩
      exact ⟨hnone, hmissed, rfl⟩
    · rintro ⟨hnone, hmissed, rfl⟩
      exact ⟨k, ⟨hmissed, hnone⟩, rfl, rfl⟩
  rw [writes, List.mem_append, habsent]
  exact or_congr_left (Table.find_eq_some_iff b.pending.nodup).symm

namespace Reordered

variable {b b' : Buffer} (hb : b.Reordered b')

include hb

theorem get? (k : Key) : b'.pending.get? k = b.pending.get? k :=
  (Table.find_perm hb.pending b.pending.nodup k).symm

theorem mem_missed {k : Key} : k ∈ b'.missed ↔ k ∈ b.missed := hb.missed.mem_iff.symm

theorem nodup (hm : b.missed.Nodup) : b'.missed.Nodup := hb.missed.nodup_iff.1 hm

theorem pair_mem_writes {k : Key} {e : Entry} : (k, e) ∈ b'.writes ↔ (k, e) ∈ b.writes := by
  rw [Buffer.pair_mem_writes, Buffer.pair_mem_writes, hb.get?, hb.mem_missed]

theorem isEmpty (hempty : b = .empty) : b' = .empty := by
  subst hempty
  obtain ⟨clearing, pending, missed⟩ := b'
  obtain rfl : clearing = false := hb.clearing
  obtain rfl : missed = [] := hb.missed.nil_eq.symm
  obtain rfl : pending = .empty := Table.ext_entries hb.pending.nil_eq.symm
  rfl

end Reordered

/-- How a unit of work walks through one buffer when it ends. -/
structure Walk where
  order : Buffer → Buffer
  reorders : ∀ b : Buffer, b.Reordered (order b)

namespace Walk

/-- What was touched first comes first. -/
def insertion : Walk := ⟨id, .refl⟩

@[simp] theorem order_empty (w : Walk) : w.order .empty = .empty := (w.reorders .empty).isEmpty rfl

end Walk

/-- Every order of a buffer is the order of some walk. -/
theorem Reordered.exists_walk {b b' : Buffer} (hb : b.Reordered b') :
    ∃ w : Walk, w.order b = b' := by
  classical
  refine ⟨⟨fun c => if c = b then b' else c, fun c => ?_⟩, if_pos rfl⟩
  split
  · rename_i hc
    rw [hc]
    exact hb
  · exact .refl c

end Buffer

namespace Buffers

variable {bs bs' : Buffers} {id : String} {r : CacheRef}

/-- A buffer is found under its name, in some order. -/
theorem Reordered.of_get? (hbs : bs.Reordered bs') {b' : Buffer}
    (hb' : bs'.byId.get? id = some (r, b')) :
    ∃ b, bs.byId.get? id = some (r, b) ∧ b.Reordered b' := by
  have hid := hbs id
  rw [hb'] at hid
  generalize bs.byId.get? id = x at hid ⊢
  cases hid with
  | some h =>
    obtain ⟨rfl, hb⟩ := h
    exact ⟨_, rfl, hb⟩

end Buffers
end ResultCache
