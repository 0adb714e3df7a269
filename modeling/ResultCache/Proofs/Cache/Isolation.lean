import ResultCache.Cache.Copying
import ResultCache.Cache.Store
import ResultCache.Proofs.Value.Copies

/-!
# Copies are isolated

Rows go into a copying layer as bytes and come out as new objects. So between the put of a key and a
read of it the objects that were stored, and those that earlier reads returned, can change in any
way: the read returns the rows as they were when they were put (`get_put_isolated`), made of objects
that did not exist before the read and none of which leads back to itself.

The layer lies over a store that refuses nothing. What the store holds for a key stays the same bytes
through every step that spares the key (`Keeps.run`); the rest is the codec of values.
-/
namespace ResultCache.Copying

/-- What can happen between a put and a read: properties are set, objects are made, the cache is
called. -/
inductive Step where
  | write (o : ObjId) (name : String) (v : Value)
  | make (r : Record)
  | put (now : Instant) (j : Key) (e : Entry)
  | get (now : Instant) (j : Key)
  | remove (now : Instant) (j : Key)

/-- Whether a step neither replaces nor removes the entry of a key. -/
def Step.Spares (k : Key) : Step → Prop
  | .put _ j _ => j ≠ k
  | .remove _ j => j ≠ k
  | _ => True

/-- What a step makes of the heap and of a copying layer over a store. -/
def step (t : Step) (m : Heap × Unit × Store) : Heap × Unit × Store :=
  match t with
  | .write o name v => (m.1.write o name v, m.2)
  | .make r => ((m.1.alloc r).2, m.2)
  | .put now j e => (m.1, ((ops Store.ops).put now m.1 j e m.2).2)
  | .get now j => ((ops Store.ops).get now m.1 j m.2).2
  | .remove now j => ((ops Store.ops).remove now m.1 j m.2).2

def run (ts : List Step) (m : Heap × Unit × Store) : Heap × Unit × Store :=
  ts.foldl (fun m t => step t m) m

/-- The store answers, and holds these bytes for a key. -/
structure Keeps (k : Key) (bs : List UInt8) (s : Unit × Store) : Prop where
  refused : s.2.refused = []
  stored : s.2.entries.get? k = some (.encoded bs)

theorem keeps_put {s : Unit × Store} (hs : s.2.refused = []) (now : Instant) (h : Heap) (k : Key)
    (vs : List Value) :
    ((ops Store.ops).put now h k (.rows vs) s).1 = .ok () ∧
      Keeps k (h.encodeRows vs) ((ops Store.ops).put now h k (.rows vs) s).2 := by
  have hput : (ops Store.ops).put now h k (.rows vs) s =
      (.ok (), (), { s.2 with entries := s.2.entries.insert k (.encoded (h.encodeRows vs)) }) := by
    simp [ops, put, stored, Store.ops, Store.put, hs, below]
  rw [hput]
  exact ⟨rfl, hs, Table.get?_insert_self s.2.entries k _⟩

variable {k : Key} {bs : List UInt8} {s : Unit × Store}

theorem Keeps.put_of_ne (hs : Keeps k bs s) (now : Instant) (h : Heap) {j : Key} (hj : j ≠ k)
    (e : Entry) : Keeps k bs ((ops Store.ops).put now h j e s).2 := by
  change Keeps k bs (put Store.ops now h j e s).2
  rw [put]
  split
  · rename_i e' _
    change Keeps k bs ((), (s.2.put j e').2)
    rw [Store.put, if_neg (by rw [hs.refused]; simp)]
    exact ⟨hs.refused, (Table.get?_insert_of_ne _ _ (Ne.symm hj)).trans hs.stored⟩
  · exact hs

theorem Keeps.get (hs : Keeps k bs s) (now : Instant) (h : Heap) (j : Key) :
    Keeps k bs ((ops Store.ops).get now h j s).2.2 := by
  have hsnd := snd_restoreBelow s.2.id (Store.ops.get now h j s.2)
  exact hsnd ▸ hs

theorem Keeps.remove_of_ne (hs : Keeps k bs s) (now : Instant) (h : Heap) {j : Key} (hj : j ≠ k) :
    Keeps k bs ((ops Store.ops).remove now h j s).2.2 := by
  have hsnd : ((ops Store.ops).remove now h j s).2.2 = ((), (s.2.remove j).2) :=
    snd_restoreBelow s.2.id (Store.ops.remove now h j s.2)
  rw [hsnd, Store.remove, if_neg (by rw [hs.refused]; simp)]
  exact ⟨hs.refused, (Table.get?_erase_of_ne _ (Ne.symm hj)).trans hs.stored⟩

/-- A step that spares a key leaves its bytes in the store. -/
theorem Keeps.step {h : Heap} (hs : Keeps k bs s) {t : Step} (ht : t.Spares k) :
    Keeps k bs (step t (h, s)).2 := by
  cases t with
  | write o name v => exact hs
  | make r => exact hs
  | put now j e => exact hs.put_of_ne now h ht e
  | get now j => exact hs.get now h j
  | remove now j => exact hs.remove_of_ne now h ht

theorem Keeps.run {h : Heap} (hs : Keeps k bs s) {ts : List Step} (hts : ∀ t ∈ ts, t.Spares k) :
    Keeps k bs (run ts (h, s)).2 := by
  induction ts generalizing h s with
  | nil => exact hs
  | cons t ts ih =>
    have ht := hs.step (h := h) (hts t List.mem_cons_self)
    exact ih ht fun u hu => hts u (List.mem_cons_of_mem _ hu)

/-- A read makes the rows anew from the bytes. -/
theorem Keeps.get_eq (hs : Keeps k bs s) {fs : List Frozen} (hfs : Frozen.decodeRows bs = .ok fs)
    (now : Instant) (h : Heap) :
    (ops Store.ops).get now h k s =
      (.ok (some (.rows (Frozen.thawAll fs h).1)), (Frozen.thawAll fs h).2, s) := by
  simp [ops, Store.ops, Store.get, hs.refused, hs.stored, restoreBelow, restored, hfs]

/-- Rows that were put into a copying layer come back as they were then, whatever happens to objects
and to other keys in between: `K` holds the objects that the rows lead to, which exist and may be
shared and lead back to one another. The rows that come back are new and free of cycles. The bytes
in between say of every value, floating point bits included, what its frozen copy says, and a way
back to an object is cut in both at the same places. -/
theorem get_put_isolated {h : Heap} {K : ObjId → Prop} (hK : h.Region K) {vs : List Value}
    (hvs : ∀ v ∈ vs, v.Within K) (hlen : vs.length < 2 ^ 64) (id : String) (S : Entries) (k : Key)
    (now : Instant) :
    let put := (ops Store.ops).put now h k (.rows vs) ((), { Store.perpetual id with entries := S })
    put.1 = .ok () ∧
    (∀ (ts : List Step) (later : Instant), (∀ t ∈ ts, t.Spares k) →
      let m := run ts (h, put.2)
      ∃ ws h', (ops Store.ops).get later m.1 k m.2 = (.ok (some (.rows ws)), h', m.2) ∧
        ws.map h'.freeze = vs.map h.freeze ∧
        (∀ o, h'.Reaches (Heap.named ws) o → m.1.size ≤ o.index) ∧
        h'.Acyclic (Heap.named ws)) ∧
    Frozen.decodeRows (h.encodeRows vs) = .ok (vs.map h.freeze) ∧
    (∀ bits, Frozen.decodeRows (h.encodeRows [.float bits]) = .ok [.float bits]) ∧
    ∀ path v, (h.outlineHolding path v).cut = h.freezeAlong path v := by
  intro put
  obtain ⟨hok, hkeeps⟩ := keeps_put (s := ((), { Store.perpetual id with entries := S })) rfl now h k vs
  have hfs := h.freezeRows_regular hK hvs
  have hdecode := h.decodeRows_encodeRows hK hvs hlen
  refine ⟨hok, fun ts later hts => ?_, hdecode, fun bits => ?_, h.cut_outlineHolding⟩
  · have hget := (hkeeps.run (h := h) hts).get_eq hdecode later (run ts (h, put.2)).1
    have hmade := Frozen.made_thawAll hfs (run ts (h, put.2)).1
    exact ⟨_, _, hget, hmade.freeze, fun o ho => (hmade.fresh ho).1, hmade.acyclic⟩
  · have hbits : ∀ v ∈ [Value.float bits], v.Within fun _ => False := by simpa using .float bits
    have hfloat := h.decodeRows_encodeRows h.region_empty hbits (by simp)
    simpa [Heap.freeze, Heap.freezeAlong] using hfloat

/-- The heap of one object that leads back to itself. -/
def loopHeap : Heap := (Heap.empty.alloc (.ofList [("me", .object ⟨0⟩)])).2

theorem region_loopHeap : loopHeap.Region fun o => o = ⟨0⟩ := by
  rintro o rfl
  refine ⟨.ofList [("me", .object ⟨0⟩)], rfl, by decide, by decide, fun p hp => ?_⟩
  rw [List.mem_singleton.1 hp]
  exact .object rfl

theorem freeze_loopHeap : loopHeap.freeze (.object ⟨0⟩) = .object [("me", .object [])] := by
  have hr : loopHeap.record? ⟨0⟩ = some (.ofList [("me", .object ⟨0⟩)]) := rfl
  rw [Heap.freeze, Heap.freezeAlong_object (by simp) hr]
  change Frozen.object [("me", loopHeap.freezeAlong [⟨0⟩] (.object ⟨0⟩))] = _
  rw [Heap.freezeAlong_object_of_mem (by simp)]

/-- An object that leads back to itself is stored, read and changed: it comes back as it was. -/
theorem get_put_isolated_loopHeap :
    let put := (ops Store.ops).put 0 loopHeap .empty (.rows [.object ⟨0⟩]) ((), .perpetual "c")
    let m := run [.get 1 .empty, .write ⟨0⟩ "me" .null, .write ⟨1⟩ "me" (.bool true),
      .put 2 ⟨0, 0, 0, []⟩ .absence] (loopHeap, put.2)
    ∃ ws h', (ops Store.ops).get 3 m.1 .empty m.2 = (.ok (some (.rows ws)), h', m.2) ∧
      ws.map h'.freeze = [.object [("me", .object [])]] := by
  intro put m
  have hvs : ∀ v ∈ [Value.object ⟨0⟩], v.Within fun o => o = ⟨0⟩ := by simpa using .object rfl
  obtain ⟨-, hrun, -⟩ := get_put_isolated region_loopHeap hvs (by decide) "c" .empty .empty 0
  obtain ⟨ws, h', hget, hws, -⟩ := hrun [.get 1 .empty, .write ⟨0⟩ "me" .null,
    .write ⟨1⟩ "me" (.bool true), .put 2 ⟨0, 0, 0, []⟩ .absence] 3
    (by simp [Step.Spares, Key.empty])
  rw [List.map_singleton, freeze_loopHeap] at hws
  exact ⟨ws, h', hget, hws⟩

end ResultCache.Copying
