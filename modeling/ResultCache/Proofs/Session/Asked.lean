import ResultCache.Proofs.Session.Retrying
import ResultCache.Proofs.Session.Story

/-!
# Stories tell of every question

A data source that counts how often it is asked for rows (`Counts`) has counted as many questions as
the story of a call tells of (`Counts.perform`), those of queries inside queries included. So what a
story does not tell of was not asked.
-/
namespace ResultCache

/-- Whether the data source is asked for rows. -/
def Happening.isAsk : Happening → Bool
  | .asks _ => true
  | _ => false

/-- How often the data source is asked for rows. -/
def questions (l : List Happening) : Nat := l.countP Happening.isAsk

@[simp] theorem questions_append (l l' : List Happening) :
    questions (l ++ l') = questions l + questions l' :=
  List.countP_append

@[simp] theorem questions_asks (k : Key) (l : List Happening) :
    questions (.asks k :: l) = questions l + 1 :=
  List.countP_cons_of_pos rfl

@[simp] theorem questions_loads (k : Key) (vs : List Value) (l : List Happening) :
    questions (.loads k vs :: l) = questions l :=
  List.countP_cons_of_neg (by simp [Happening.isAsk])

@[simp] theorem questions_answers (k : Key) (c : Option CacheRef) (vs : List Value) (h : Heap)
    (l : List Happening) : questions (.answers k c vs h :: l) = questions l :=
  List.countP_cons_of_neg (by simp [Happening.isAsk])

variable {τ : Type}

/-- A call that is no query asks for no rows. -/
@[simp] theorem questions_told (env : Env τ) {β : Type} (c : Call β) (s : State τ) :
    questions (c.told env s) = 0 := by
  cases c with
  | update st param =>
    rw [Call.told]
    repeat' split
    all_goals rfl
  | commit required =>
    rw [Call.told]
    repeat' split
    all_goals rfl
  | rollback required =>
    rw [Call.told]
    split <;> rfl
  | close force =>
    rw [Call.told]
    repeat' split
    all_goals rfl
  | _ => rfl

/-- The notes of an assembly are all such that `P`. -/
def Assembly.Notes (P : (τ → τ) → Prop) {α : Type} : Assembly τ α → Prop
  | .done _ => True
  | .heap next => ∀ h, (next h).Notes P
  | .alloc _ next => ∀ o, (next o).Notes P
  | .write _ _ _ next => next.Notes P
  | .note f next => P f ∧ next.Notes P
  | .call _ next => ∀ b, (next b).Notes P

/-- The data source counts how often it is asked for rows, and nothing else changes the count. -/
structure Counts (env : Env τ) (count : τ → Nat) : Prop where
  query : ∀ st b param w h x, count (env.source.query st b param w h x).2.2 = count x + 1
  update : ∀ st b param h x, count (env.source.update st b param h x).2.2 = count x
  commit : ∀ x, count (env.source.commit x).2 = count x
  rollback : ∀ x, count (env.source.rollback x).2 = count x
  close : ∀ x, count (env.source.close x) = count x
  notes : ∀ st rs, (env.materializer st rs).Notes fun f => ∀ x, count (f x) = count x

namespace Counts

variable {env : Env τ} {count : τ → Nat} {nested : Answering τ} {tell : Telling τ} {s t : State τ}

/-- The questions that were counted between two states are those of `l`. -/
def Told (count : τ → Nat) (l : List Happening) (s t : State τ) : Prop :=
  count t.world.source = count s.world.source + questions l

theorem Told.trans {l l' : List Happening} {u : State τ} (hs : Told count l s t)
    (ht : Told count l' t u) : Told count (l' ++ l) s u := by
  rw [Told, questions_append]
  rw [Told] at hs ht
  omega

theorem told_finish (count : τ → Nat) (reply : Reply) (s : State τ) :
    count (s.finish reply).2.world.source = count s.world.source := by
  rw [State.finish]
  split
  · rfl
  · dsimp only
    split <;> rfl

variable (hC : Counts env count)

include hC

theorem told_rollbackLocal (required : Bool) (s : State τ) :
    count (s.rollbackLocal env.source required).2.world.source = count s.world.source := by
  cases required with
  | true => exact hC.rollback _
  | false => rfl

/-- A call that is no query leaves the count. -/
theorem told_after {β : Type} (c : Call β) (s : State τ) :
    count (c.after env s).world.source = count s.world.source := by
  cases c with
  | defer d =>
    obtain ⟨h, ds, hdefer⟩ := s.defer_deferred d
    rw [Call.after, hdefer]
  | update st param =>
    obtain ⟨bs, hflush⟩ := State.flush_buffers st s
    rw [Call.after, State.update, hflush]
    split
    · rfl
    · exact hC.update ..
  | commit required =>
    rw [Call.after, State.commit]
    split
    · rfl
    · cases required with
      | false => rfl
      | true =>
        rw [if_pos rfl]
        have hcommit : count (s.clearLoaded.source env.source.commit).2.world.source =
            count s.world.source := hC.commit _
        generalize s.clearLoaded.source env.source.commit = x at hcommit
        obtain ⟨_ | ⟨⟩, t⟩ := x <;> exact hcommit
  | rollback required =>
    rw [Call.after, State.rollback]
    split
    · rfl
    · exact hC.told_rollbackLocal required s
  | close force =>
    rw [Call.after, State.close]
    split
    · rfl
    · cases force with
      | true => exact (hC.close _).trans (hC.told_rollbackLocal true s.rollbackBuffers)
      | false => exact (hC.close _).trans (hC.told_rollbackLocal false s.commitBuffers.2)
  | _ => rfl

/-- Whatever answers queries counts the questions that `tell` tells of. -/
def Inside (count : τ → Nat) (nested : Answering τ) (tell : Telling τ) : Prop :=
  ∀ ⦃q k handled reply⦄ ⦃s t : State τ⦄, nested q k handled s = some (reply, t) →
    Told count (tell q k handled s) s t

theorem call (hnested : Inside count nested tell) {β : Type} {c : Call β} {b : β}
    (h : c.run env nested s = some (b, t)) : Told count (c.story env tell s) s t := by
  cases hquery : c.isQuery with
  | false =>
    have hstory : c.story env tell s = c.told env s := by
      cases c with
      | query q key handled => cases hquery
      | _ => rfl
    rw [Call.eq_after hquery h, hstory, Told, questions_told]
    exact hC.told_after c s
  | true =>
    cases c with
    | query q key handled =>
      obtain ⟨k, hk, hstory⟩ | ⟨rfl, hstory⟩ := Follows.query_cases tell h
      · rw [hstory]
        exact hnested hk
      · rw [hstory]
        rfl
    | _ => cases hquery

theorem assembly (hnested : Inside count nested tell) {α : Type} {a : Assembly τ α}
    (ha : a.Notes fun f => ∀ x, count (f x) = count x) {r : Result α}
    (h : a.run env nested s = some (r, t)) : Told count (a.story env nested tell s) s t := by
  induction a generalizing s with
  | done r =>
    cases h
    rfl
  | heap next ih => exact ih _ (ha _) h
  | alloc r next ih => exact ih _ (ha _) h
  | write o name v next ih => exact ih ha h
  | note f next ih =>
    have hrest := ih ha.2 h
    rw [Told, ha.1] at hrest
    exact hrest
  | call c next ih =>
    rw [Assembly.run] at h
    obtain ⟨⟨b, u⟩, hcall, hrest⟩ := Option.bind_eq_some_iff.1 h
    rw [Assembly.story, hcall]
    exact (hC.call hnested hcall).trans (ih b (ha b) hrest)

theorem load (hnested : Inside count nested tell) {q : Query} {handled : Bool} {reply : Reply}
    (h : s.load env nested q handled = some (reply, t)) :
    count t.world.source =
      count s.world.source + questions (s.loadStory env nested tell q) + 1 := by
  rw [State.load] at h
  rw [State.loadStory]
  have hquery := hC.query q.statement q.binding q.param q.window s.heap s.world.source
  generalize env.source.query q.statement q.binding q.param q.window s.heap s.world.source = x
    at h hquery ⊢
  obtain ⟨rows, h', w⟩ := x
  cases rows with
  | error f =>
    cases h
    exact hquery
  | ok rows =>
    obtain ⟨⟨r, u⟩, hrun, hreply⟩ := Option.map_eq_some_iff.1 h
    have hu := hC.assembly hnested (hC.notes _ _) hrun
    rw [Told] at hu
    dsimp only at hquery hu ⊢
    cases r <;> cases hreply <;> omega

theorem fetch (hnested : Inside count nested tell) {q : Query} {k : Key} {handled : Bool}
    {reply : Reply} (h : s.fetch env nested q k handled = some (reply, t)) :
    Told count (s.fetchStory env nested tell q k handled) s t := by
  rw [State.fetch] at h
  obtain ⟨⟨⟨result, gone⟩, u⟩, hload, hreply⟩ := Option.map_eq_some_iff.1 h
  have hu := hC.load hnested hload
  have hmark : (s.mark k).world.source = s.world.source := rfl
  rw [hmark] at hu
  rw [State.fetchStory, hload]
  cases result with
  | error f =>
    cases hreply
    rw [Told, questions_append, questions_asks]
    exact hu
  | ok vs =>
    cases hreply
    rw [Told, questions_loads, questions_append, questions_asks]
    obtain ⟨outputs, houtputs⟩ := State.keepOutputs_outputs q k
      (if handled then u.unmark k else (u.unmark k).keepRows k vs)
    rw [houtputs]
    cases handled <;> exact hu

theorem lookup (hnested : Inside count nested tell) {q : Query} {k : Key} {handled : Bool}
    {reply : Reply} (h : s.lookup env nested q k handled = some (reply, t)) :
    Told count (s.lookupStory env nested tell q k handled) s t := by
  rw [State.lookupStory]
  have hfetch : s.fetches k handled = true → s.fetch env nested q k handled = some (reply, t) →
      Told count (s.lookupStory env nested tell q k handled) s t := by
    intro hfetches h
    rw [State.lookupStory, if_pos hfetches]
    exact hC.fetch hnested h
  cases handled with
  | true => exact hfetch rfl h
  | false =>
    rw [State.lookup, if_neg Bool.false_ne_true] at h
    cases hheld : s.session.loaded.get? k with
    | none =>
      rw [hheld] at h
      exact hfetch (by rw [State.fetches, hheld]; rfl) h
    | some e =>
      rw [hheld] at h
      cases e with
      | encoded bs => exact hfetch (by rw [State.fetches, hheld]; rfl) h
      | loading =>
        cases h
        rw [State.fetches, hheld]
        rfl
      | _ =>
        cases h
        obtain ⟨h, hrestore⟩ := State.restoreOutputs_heap q k s
        rw [State.fetches, hheld, hrestore]
        rfl

theorem answerLocal (hnested : Inside count nested tell) {q : Query} {k : Key} {handled : Bool}
    {reply : Reply} (h : s.answerLocal env nested q k handled = some (reply, t)) :
    Told count (s.localStory env nested tell q k handled) s t := by
  rw [State.localStory, h]
  rw [State.answerLocal_eq] at h
  obtain ⟨⟨a, u⟩, hinside, hending⟩ := Option.map_eq_some_iff.1 h
  obtain ⟨⟨b, v⟩, hlookup, hb⟩ := Option.map_eq_some_iff.1 hinside
  cases hb
  have hv := hC.lookup hnested hlookup
  have hopened : (s.opened q).enter.world.source = s.world.source := by
    rw [State.enter, State.opened]
    split <;> rfl
  have ht : count t.world.source = count v.world.source := by
    rw [State.ending] at hending
    split at hending
    · cases hending
      rfl
    · have hfinish := told_finish count b v.leave
      rw [hending] at hfinish
      exact hfinish
  rw [Told, hopened] at hv
  rw [Told, questions_answers, ht]
  exact hv

theorem answerShared (hnested : Inside count nested tell) {r : CacheRef} {q : Query} {k : Key}
    {reply : Reply} (h : s.answerShared env nested r q k = some (reply, t)) :
    Told count (s.sharedStory env nested tell r q k) s t := by
  rw [State.answerShared] at h
  rw [State.sharedStory]
  split at h
  · rename_i hsets
    cases h
    rw [if_pos hsets]
    rfl
  · rename_i hsets
    rw [if_neg hsets]
    have hread : (s.readShared r k).2.world.source = s.world.source := rfl
    cases hx : s.readShared r k with
    | mk res u =>
      rw [hx] at h hread
      dsimp only at hread
      rw [Told, ← hread]
      cases res with
      | error f =>
        cases h
        rfl
      | ok e =>
        dsimp only at h ⊢
        cases hvs : e.bind Entry.results? with
        | some vs =>
          rw [hvs] at h
          cases h
          rfl
        | none =>
          rw [hvs] at h
          obtain ⟨⟨a, v⟩, hlocal, hreply⟩ := Option.map_eq_some_iff.1 h
          have hv := hC.answerLocal hnested hlocal
          dsimp only at hreply
          split at hreply <;> cases hreply <;> exact hv

theorem answerOnce (hnested : Inside count nested tell) {q : Query} {k : Key} {handled : Bool}
    {reply : Reply} (h : s.answerOnce env nested q k handled = some (reply, t)) :
    Told count (s.onceStory env nested tell q k handled) s t := by
  rw [State.answerOnce] at h
  rw [State.onceStory]
  cases hopen : s.session.ensureOpen with
  | error f =>
    rw [hopen] at h
    cases h
    rfl
  | ok u =>
    rw [hopen] at h
    dsimp only at h ⊢
    cases hcache : s.session.sharedCache q.statement with
    | none =>
      rw [hcache] at h
      exact hC.answerLocal hnested h
    | some r =>
      rw [hcache] at h
      obtain ⟨bs, hflush⟩ := State.flush_buffers q.statement s
      have hsource : (s.flush q.statement).world.source = s.world.source := by rw [hflush]
      dsimp only at h ⊢
      rw [Told, ← hsource]
      split at h
      · rename_i huses
        rw [if_pos huses]
        exact hC.answerLocal hnested h
      · rename_i huses
        rw [if_neg huses]
        exact hC.answerShared hnested h

/-- The questions of a query that were counted are those that its story tells of. -/
theorem answer {limit : Nat} : Inside count (env.answer limit) (env.story limit) := by
  -- on how deep queries may nest: the queries inside this one nest less deep
  induction limit with
  | zero =>
    intro q k handled reply s t h
    cases h
  | succ limit ih =>
    intro q k handled reply s t h
    exact hC.answerOnce ih h

/-- The questions of a call that were counted are those that its story tells of. -/
theorem perform {limit : Nat} {β : Type} {c : Call β} {b : β}
    (h : env.perform limit c s = some (b, t)) : Told count (env.tells limit c s) s t :=
  hC.call hC.answer h

end Counts

section Nested

variable {P : (τ → τ) → Prop}

theorem Assembly.Notes.bind {α β : Type} {a : Assembly τ α} {f : α → Assembly τ β} (ha : a.Notes P)
    (hf : ∀ x, (f x).Notes P) : (a.bind f).Notes P := by
  induction a with
  | done r =>
    cases r with
    | ok x => exact hf x
    | error e => trivial
  | heap next ih => exact fun h => ih h (ha h)
  | alloc r next ih => exact fun o => ih o (ha o)
  | write o name v next ih => exact ih ha
  | note g next ih => exact ⟨ha.1, ih ha.2⟩
  | call c next ih => exact fun b => ih b (ha b)

theorem Assembly.notes_ask {α : Type} (c : Call α) : (ask c : Assembly τ α).Notes P :=
  fun _ => trivial

theorem Assembly.notes_need {α : Type} (c : Call (Result α)) : (need c : Assembly τ α).Notes P :=
  fun _ => trivial

namespace NestedSelect

theorem notes_fill (n : NestedSelect) (o : ObjId) : (n.fill o : Assembly τ Unit).Notes P := by
  intro h
  apply (Assembly.notes_need _).bind
  intro k
  apply (Assembly.notes_need _).bind
  intro loaded
  split
  · exact Assembly.notes_need _
  · apply (Assembly.notes_ask _).bind
    intro reply
    apply Assembly.Notes.bind
    · trivial
    · exact fun _ => trivial

theorem notes_fillAll (o : ObjId) (ns : List NestedSelect) :
    (fillAll o ns : Assembly τ Unit).Notes P := by
  induction ns with
  | nil => trivial
  | cons n ns ih => exact (notes_fill n o).bind fun _ => ih

/-- Nested selects leave no notes. -/
theorem notes_objects (ns : List NestedSelect) (rs : List Record) :
    (objects ns rs : Assembly τ (List Value)).Notes P := by
  induction rs with
  | nil => trivial
  | cons r rs ih => exact fun o => (notes_fillAll o ns).bind fun _ => ih.bind fun _ => trivial

end NestedSelect

/-- A data source that refuses some queries counts all of them. -/
theorem counts_refusing (H : ComponentHash) (D : DataSource Unit) (calls : List Nat)
    (ns : String → List NestedSelect) : Counts (.nested H (D.refusing calls) ns) id where
  query st b param w h n := by
    rw [Env.nested, DataSource.refusing]
    dsimp only
    split <;> rfl
  update _ _ _ _ _ := rfl
  commit _ := rfl
  rollback _ := rfl
  close _ := rfl
  notes _ rs := NestedSelect.notes_objects _ rs

end Nested

end ResultCache
