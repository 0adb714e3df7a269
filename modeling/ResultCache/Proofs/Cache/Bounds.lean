import ResultCache.Proofs.Cache.Tidy

/-!
# How many entries a stack can hold

The sizes that bound a stack (`Stack.sizes`) are those of all its bounding layers if every entry that
is put is legible. Otherwise those of recently used keys count only over a stack whose failing puts
add nothing (`failsClean`), for a layer that is told of a failed put does not list its key.

`Stack.entries_within_sizes` is the bound; `exceeds_size` is a stack with a layer for one key that comes to hold
two entries.
-/
namespace ResultCache

/-- Whether a removal always returns: nothing has to be decoded, or all can be. -/
def removalsReturn (legible : Bool) (ls : List Layer) : Bool := legible || !ls.contains .copying

/-- Whether a put that fails adds nothing. -/
def failsClean (legible : Bool) : List Layer → Bool
  | [] => true
  | .recency :: ls => removalsReturn legible ls && failsClean legible ls
  | _ :: ls => failsClean legible ls

/-- If only legible entries are put, all failing puts add nothing. -/
theorem failsClean_true (ls : List Layer) : failsClean true ls = true := by
  induction ls with
  | nil => rfl
  | cons l ls ih => cases l <;> simp [failsClean, removalsReturn, ih]

/-- The layer lists no key. -/
def Layer.Unused : (l : Layer) → l.State → Prop
  | .recency, r => r.index = []
  | .arrival, a => a.queue = []
  | _, _ => True

/-- A key with one number in it. -/
def numberedKey (n : Int64) : Key := .ofComponents .mixing [.int n]

namespace Stack

/-- The bounds of the layers, of which those of recently used keys count if puts that fail add
nothing below. -/
def sizes (legible : Bool) : {ls : List Layer} → Stack ls → List Nat
  | [], _ => []
  | .recency :: ls, s =>
    if failsClean legible ls then s.1.capacity :: sizes legible s.2 else sizes legible s.2
  | .arrival :: _, s => s.1.bound :: sizes legible s.2
  | _ :: _, s => sizes legible s.2

/-- No layer lists a key yet. -/
def Unused : {ls : List Layer} → Stack ls → Prop
  | [], _ => True
  | l :: _, s => l.Unused s.1 ∧ Unused s.2

/-- An entry in the store. -/
def Has {ls : List Layer} (s : Stack ls) (k : Key) (e : Entry) : Prop :=
  s.store.entries.get? k = some e

/-- The layers have the bounds they had in `s₀` and list what has an entry. -/
def Kept (legible : Bool) : {ls : List Layer} → Stack ls → Stack ls → Prop
  | [], _, s => Store.Open legible s
  | .recency :: ls, s₀, s => Kept legible s₀.2 s.2 ∧
    Recency.Within (failsClean legible ls) s₀.1.capacity Has s
  | .arrival :: _, s₀, s => Kept legible s₀.2 s.2 ∧ Arrival.Within s₀.1.bound Has s
  | _ :: _, s₀, s => Kept legible s₀.2 s.2

variable {legible : Bool} {ls : List Layer}

theorem tidy (legible : Bool) (s₀ : Stack ls) :
    (stackOps ls).Tidy legible (removalsReturn legible ls) (failsClean legible ls)
      (Kept legible s₀) Has := by
  induction ls with
  | nil => exact Store.tidy legible _ _
  | cons l ls ih =>
    have hS := stocks_stackOps ls
    cases l with
    | recency => exact Recency.tidy hS (ih s₀.2) s₀.1.capacity
    | arrival => exact Arrival.tidy hS (ih s₀.2) s₀.1.bound
    | expiry => exact Expiry.tidy hS (ih s₀.2)
    | gate => exact Gate.tidy (ih s₀.2)
    | copying =>
      have hreturns : removalsReturn legible (.copying :: ls) = legible := by simp [removalsReturn]
      rw [hreturns]
      exact Copying.tidy (ih s₀.2) fun hl => by simp [removalsReturn, hl]
    | exclusive => exact Exclusive.tidy (ih s₀.2)
    | counting => exact Counting.tidy (ih s₀.2)

/-- Over a new store, layers that list nothing list all there is. -/
theorem kept_of_unused {s : Stack ls} {id : String} (hstore : s.store = .perpetual id)
    (hs : s.Unused) : Kept legible s s := by
  have hempty : ∀ k e, ¬ s.Has k e := by
    intro k e he
    rw [Has, hstore] at he
    cases he
  induction ls with
  | nil =>
    obtain rfl : s = Store.perpetual id := hstore
    exact ⟨rfl, fun _ k e he => absurd he (hempty k e)⟩
  | cons l ls ih =>
    cases l with
    | recency =>
      refine ⟨ih hstore hs.2 hempty, rfl, fun _ => ⟨?_, fun k e he => absurd he (hempty k e)⟩⟩
      rw [hs.1]
      exact Nat.zero_le _
    | arrival =>
      refine ⟨ih hstore hs.2 hempty, rfl, fun _ => ⟨?_, fun k e he => absurd he (hempty k e)⟩⟩
      rw [hs.1]
      exact Nat.zero_le _
    | _ => exact ih hstore hs.2 hempty

theorem Kept.size_le {s₀ s : Stack ls} (hs : Kept legible s₀ s) {n : Nat}
    (hn : n ∈ s₀.sizes legible) (hpos : 0 < n) : s.store.entries.size ≤ n := by
  induction ls with
  | nil => cases hn
  | cons l ls ih =>
    cases l with
    | recency =>
      obtain ⟨hbelow, -, hcovers⟩ := hs
      rw [sizes] at hn
      split at hn
      · rename_i hclean
        rcases List.mem_cons.1 hn with rfl | hn
        · exact (hcovers hclean).size_le
        · exact ih hbelow hn
      · exact ih hbelow hn
    | arrival =>
      obtain ⟨hbelow, -, hcovers⟩ := hs
      rcases List.mem_cons.1 hn with rfl | hn
      · exact (hcovers hpos).size_le
      · exact ih hbelow hn
    | _ => exact ih hs hn

theorem kept_after {s : Stack ls} {id : String} (hstore : s.store = .perpetual id) (hs : s.Unused)
    {past : List CacheCall} (hpast : legible = true → ∀ c ∈ past, c.Legible) :
    Kept legible s (CacheCall.after (stackOps ls) s past) :=
  (tidy legible s).after (kept_of_unused hstore hs) hpast

/-- Whatever the layers are, whatever is called and at whatever times: the store never has more
entries than any of the sizes of the stack. -/
theorem entries_within_sizes (legible : Bool) (s : Stack ls) (id : String)
    (hstore : s.store = .perpetual id) (hs : s.Unused) (past : List CacheCall)
    (hpast : legible = true → ∀ c ∈ past, c.Legible) (n : Nat) (hn : n ∈ s.sizes legible)
    (hpos : 0 < n) : (CacheCall.after (stackOps ls) s past).store.entries.size ≤ n := by
  have hkept : Kept legible s (CacheCall.after (stackOps ls) s past) := kept_after hstore hs hpast
  exact hkept.size_le hn hpos

/-- A layer for two keys over one for a single key, with rows that are copied. -/
theorem entries_within_sizes_single :
    let s : Stack [.copying, .arrival, .recency] :=
      ((), .ofBound 2, .ofCapacity 1 (by decide), .perpetual "c")
    let past : List CacheCall :=
      [.put 1 .empty (numberedKey 2) .absence, .put 0 .empty (numberedKey 1) (.rows [.int 5])]
    (s.store = .perpetual "c" ∧ s.Unused ∧ (∀ c ∈ past, c.Legible) ∧ 1 ∈ s.sizes true) ∧
      (CacheCall.after (stackOps _) s past).store.entries.size ≤ 1 := by
  intro s past
  have hs : s.Unused := ⟨trivial, rfl, rfl, trivial⟩
  have hvs : ∀ v ∈ [Value.int 5], v.Within fun _ => False := by simpa using .int 5
  have hrows : (Entry.rows [.int 5]).Plain .empty :=
    ⟨_, _, Heap.empty.region_empty, .rows hvs (by decide)⟩
  have hpast : ∀ c ∈ past, c.Legible := by
    intro c hc
    simp only [past, List.mem_cons, List.not_mem_nil, or_false] at hc
    rcases hc with rfl | rfl
    · trivial
    · exact hrows.legible
  have hone : 1 ∈ s.sizes true := by decide
  exact ⟨⟨rfl, hs, hpast, hone⟩,
    entries_within_sizes true s "c" rfl hs past (fun _ => hpast) 1 hone (by decide)⟩

/-- Two layers of recently used keys, for one key over two, with rows that are copied below. -/
def nested : Stack [.recency, .recency, .copying] :=
  (.ofCapacity 1 (by decide), .ofCapacity 2 (by decide), (), .perpetual "b")

/-- Bytes that mean nothing are put for the second key and are the oldest entry when the third key
is put, the latest call first. -/
def nestedCalls : List CacheCall :=
  [.put 4 .empty (numberedKey 4) .absence, .put 3 .empty (numberedKey 3) .absence,
    .get 2 .empty (numberedKey 1), .put 1 .empty (numberedKey 2) (.encoded [0xff]),
    .put 0 .empty (numberedKey 1) .absence]

/-- The third put fails in the layer for two keys with its entry stored, so the layer for one key
does not list it, and after the fourth put there are two entries. -/
theorem exceeds_size :
    ¬ ∀ {ls : List Layer} (s : Stack ls) (id : String), s.store = .perpetual id → s.Unused →
      (∀ n ∈ s.sizes true, 0 < n) → ∀ past : List CacheCall, ∀ n ∈ s.sizes true,
        (CacheCall.after (stackOps ls) s past).store.entries.size ≤ n := by
  intro hbounded
  have hle := hbounded nested "b" rfl ⟨rfl, rfl, trivial, trivial⟩ (by decide) nestedCalls 1 (by decide)
  have hsize : (CacheCall.after (stackOps _) nested nestedCalls).store.entries.size = 2 := by
    decide +kernel
  omega

end Stack

end ResultCache
