import ResultCache.Proofs.Cache.Faithful

/-!
# A stack of layers never lies

A cache is called in any way at any times, while objects are made but none is changed. `recalled`
is what the calls so far, the latest first, allow a read to find: the content of the last put of the
key that returned, unless the key was removed or the cache cleared after it. A stack of any layers
over a new store finds that or nothing (`get_recalls`): layers may drop entries and refuse calls,
but what they return is what was put.

What the stack holds is within what is recalled (`Recalls`), which every call keeps by the contract
of `CacheOps.Faithful`. The objects of all entries lie in one region; a put adds those of its entry.
-/
namespace ResultCache.Recall

inductive Call where
  | put (now : Instant) (k : Key) (e : Entry)
  | get (now : Instant) (k : Key)
  | remove (now : Instant) (k : Key)
  | clear (now : Instant)
  | size (now : Instant)
  | make (r : Record)

variable {ls : List Layer}

/-- What a call makes of the heap and of a stack. -/
def step (c : Call) (m : Heap × Stack ls) : Heap × Stack ls :=
  match c with
  | .put now k e => (m.1, ((stackOps ls).put now m.1 k e m.2).2)
  | .get now k => ((stackOps ls).get now m.1 k m.2).2
  | .remove now k => ((stackOps ls).remove now m.1 k m.2).2
  | .clear now => (m.1, (stackOps ls).clear now m.2)
  | .size now => (m.1, ((stackOps ls).size now m.2).2)
  | .make r => ((m.1.alloc r).2, m.2)

/-- The heap and the stack after some calls, of which the latest is listed first. -/
def after (m₀ : Heap × Stack ls) : List Call → Heap × Stack ls
  | [] => m₀
  | c :: past => step c (after m₀ past)

/-- The content of the last put of a key that returned, if nothing took it away since. -/
def recalled (m₀ : Heap × Stack ls) : List Call → Key → Option Content
  | [], _ => none
  | .put now j e :: past, k =>
    let m := after m₀ past
    match ((stackOps ls).put now m.1 j e m.2).1 with
    | .ok () => if j = k then some (e.content m.1) else recalled m₀ past k
    | .error _ => recalled m₀ past k
  | .remove _ j :: past, k => if j = k then none else recalled m₀ past k
  | .clear _ :: _, _ => none
  | _ :: past, k => recalled m₀ past k

/-- Every entry was put as a caller can have it. -/
def Sound (m₀ : Heap × Stack ls) : List Call → Prop
  | [] => True
  | .put _ _ e :: past => e.Plain (after m₀ past).1 ∧ Sound m₀ past
  | _ :: past => Sound m₀ past

/-- What the stack holds is within what is recalled. -/
def Recalls (id : String) (m₀ : Heap × Stack ls) (past : List Call) : Prop :=
  ∃ K, (after m₀ past).1.Region K ∧
    Stack.Holds false id (fun k c => recalled m₀ past k = some c) K (after m₀ past).1
      (after m₀ past).2

variable {id : String} {m₀ : Heap × Stack ls} {past : List Call}

theorem Recalls.put (hm : Recalls id m₀ past) (now : Instant) (k : Key) {e : Entry}
    (he : e.Plain (after m₀ past).1) : Recalls id m₀ (.put now k e :: past) := by
  obtain ⟨K, hK, hs⟩ := hm
  obtain ⟨L, c, hL, hec⟩ := he
  have hKL := hK.or hL
  have hs' := hs.of_agreeOn hK (fun _ _ => rfl) (fun o => Or.inl (b := L o))
  have hput := (faithful_stackOps false id ls).put now k hKL hs' (hec.mono fun o => Or.inr)
  refine ⟨_, hKL, (faithful_stackOps false id ls).mono (fun j d hd => ?_) hput⟩
  rw [recalled]
  generalize ((stackOps ls).put now (after m₀ past).1 k e (after m₀ past).2).1 = r at hd ⊢
  rcases r with _ | ⟨⟩
  · exact hd
  · have hset : if j = k then d = c else recalled m₀ past j = some d := hd
    by_cases hj : j = k
    · rw [if_pos hj] at hset
      rw [if_pos hj.symm, hset, hec.eq_content]
    · rw [if_neg hj] at hset
      rw [if_neg (Ne.symm hj)]
      exact hset

theorem Recalls.get (hm : Recalls id m₀ past) (now : Instant) (k : Key) :
    Recalls id m₀ (.get now k :: past) := by
  obtain ⟨K, hK, hs⟩ := hm
  obtain ⟨hanswers, hget⟩ := (faithful_stackOps false id ls).get now k hK hs
  have hgrows := hanswers.grows
  exact ⟨K, hK.of_grows hgrows, hget.of_agreeOn hK (hgrows.agreeOn hK) fun _ ho => ho⟩

theorem Recalls.remove (hm : Recalls id m₀ past) (now : Instant) (k : Key) :
    Recalls id m₀ (.remove now k :: past) := by
  obtain ⟨K, hK, hs⟩ := hm
  obtain ⟨-, hanswers, hremove⟩ := (faithful_stackOps false id ls).remove now k hK hs
  have hgrows := hanswers.grows
  have hdrop := hremove.of_agreeOn hK (hgrows.agreeOn hK) fun _ ho => ho
  refine ⟨K, hK.of_grows hgrows, (faithful_stackOps false id ls).mono (fun j d hd => ?_) hdrop⟩
  rw [recalled, if_neg (Ne.symm hd.1)]
  exact hd.2

theorem Recalls.clear (hm : Recalls id m₀ past) (now : Instant) :
    Recalls id m₀ (.clear now :: past) := by
  obtain ⟨K, hK, hs⟩ := hm
  have hclear := (faithful_stackOps false id ls).clear now hs
  exact ⟨K, hK, (faithful_stackOps false id ls).mono (Contents.none_le _) hclear⟩

theorem Recalls.size (hm : Recalls id m₀ past) (now : Instant) : Recalls id m₀ (.size now :: past) := by
  obtain ⟨K, hK, hs⟩ := hm
  exact ⟨K, hK, (faithful_stackOps false id ls).size now hs⟩

theorem Recalls.make (hm : Recalls id m₀ past) (r : Record) : Recalls id m₀ (.make r :: past) := by
  obtain ⟨K, hK, hs⟩ := hm
  have hgrows := Heap.grows_alloc (after m₀ past).1 r
  exact ⟨K, hK.of_grows hgrows, hs.of_agreeOn hK (hgrows.agreeOn hK) fun _ ho => ho⟩

/-- A new store is within what is recalled, and every call keeps that. -/
theorem recalls_after (h₀ : Heap) (s : Stack ls) (id : String)
    (hpast : Sound (h₀, s.withStore (.perpetual id)) past) :
    Recalls id (h₀, s.withStore (.perpetual id)) past := by
  induction past with
  | nil => exact ⟨_, h₀.region_empty, Stack.holds_of_store (s.store_withStore _)⟩
  | cons c past ih =>
    cases c with
    | put now k e => exact (ih hpast.2).put now k hpast.1
    | get now k => exact (ih hpast).get now k
    | remove now k => exact (ih hpast).remove now k
    | clear now => exact (ih hpast).clear now
    | size now => exact (ih hpast).size now
    | make r => exact (ih hpast).make r

/-- Whatever the layers are and remember and whatever was called before, at whatever times: a read
that finds an entry finds the one of the last put of the key that returned, and the key was not
removed and the cache not cleared since. -/
theorem get_recalls (h₀ : Heap) (s : Stack ls) (id : String) (past : List Call)
    (hpast : Sound (h₀, s.withStore (.perpetual id)) past) (now : Instant) (k : Key) :
    let m₀ := (h₀, s.withStore (.perpetual id))
    let r := (stackOps ls).get now (after m₀ past).1 k (after m₀ past).2
    ∀ e, r.1 = .ok (some e) → recalled m₀ past k = some (e.content r.2.1) := by
  intro m₀ r e he
  obtain ⟨K, hK, hs⟩ := recalls_after h₀ s id hpast
  obtain ⟨hanswers, -⟩ := (faithful_stackOps false id ls).get now k hK hs
  obtain ⟨c, hc, hec⟩ := hanswers.stands e he
  rw [← hec.eq_content]
  exact hc

/-- Rows that went through an index of one key, a layer of locks and one that clears at intervals. -/
theorem get_recalls_rows :
    let s : Stack [.recency, .gate, .expiry] :=
      (.ofCapacity 1 (by decide), .ofTimeout none, .since 0 9, .perpetual "c")
    let past : List Call := [.get 1 .empty, .put 0 .empty (.rows [.int 5])]
    Sound (.empty, s) past ∧
      ((stackOps _).get 2 (after (.empty, s) past).1 .empty (after (.empty, s) past).2).1 =
        .ok (some (.rows [.int 5])) ∧
      recalled (.empty, s) past .empty = some ((Entry.rows [.int 5]).content .empty) := by
  intro s past
  have hvs : ∀ v ∈ [Value.int 5], v.Within fun _ => False := by simpa using .int 5
  have hpast : Sound (.empty, s) past :=
    ⟨⟨_, _, Heap.empty.region_empty, .rows hvs (by decide)⟩, trivial⟩
  have hread : ((stackOps _).get 2 (after (.empty, s) past).1 .empty (after (.empty, s) past).2).1 =
      .ok (some (.rows [.int 5])) := rfl
  exact ⟨hpast, hread, get_recalls .empty s "c" past hpast 2 .empty _ hread⟩

end ResultCache.Recall
