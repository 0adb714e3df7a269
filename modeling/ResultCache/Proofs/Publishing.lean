import Mathlib.Data.List.Forall2
import ResultCache.Proofs.Buffers
import ResultCache.Proofs.Cache.Calls
import ResultCache.Proofs.Cache.Locks
import ResultCache.Proofs.UnitOfWork

/-!
# A commit tries everything

The caches behind the buffers of a unit of work may be of any make: each is given by operations on
one state of all of them, and any call may fail (`Buffers.commitEach`). `CacheOps.recorded` writes
down every call of every cache, with what it returned, and changes nothing else
(`Buffers.commitEach_recorded`). What a commit calls does not depend on what fails: each cache is
cleared first if its buffer asks for it, and then gets one put for each key that was put to the
buffer or missed, and no other call. The first put that failed is the result of the commit, and the
buffers are empty in any case (`Buffers.commit_tries_everything`). That no buffer lists a missed key
twice is true of every buffer that is called in any way (`Buffer.nodup_missed_run`).

What was put is still there at the end if the caches keep what others do not overwrite
(`CacheOps.Stores`). This is an assumption on the caches: one that evicts does not have it.
-/
namespace ResultCache

/-- Calls of caches with what they returned, the earliest first. -/
abbrev CallLog := List (CacheRef × CacheCall × CacheCall.Answer)

namespace CacheCall

/-- The fault that a put returned. -/
def Answer.fault? : Answer → Option Fault
  | stored (.error f) => some f
  | _ => none

end CacheCall

/-- The first fault of two results. -/
def Result.first (x y : Result Unit) : Result Unit :=
  match x with
  | .ok () => y
  | .error f => .error f

namespace CallLog

/-- The calls of one cache. -/
def of (log : CallLog) (r : CacheRef) : List (CacheCall × CacheCall.Answer) :=
  log.filterMap fun c => if c.1 = r then some c.2 else none

/-- The first fault that a put returned. -/
def outcome (log : CallLog) : Result Unit :=
  match log.findSome? fun c => c.2.2.fault? with
  | some f => .error f
  | none => .ok ()

variable {log log' : CallLog} {r q : CacheRef}

theorem outcome_append : outcome (log ++ log') = .first (outcome log) (outcome log') := by
  rw [outcome, outcome, List.findSome?_append]
  cases log.findSome? fun c => c.2.2.fault? <;> rfl

theorem of_append : of (log ++ log') r = log.of r ++ log'.of r := List.filterMap_append

theorem of_map_self (cs : List (CacheCall × CacheCall.Answer)) :
    of (cs.map (r, ·)) r = cs := by
  rw [of, List.filterMap_map]
  simp

theorem of_map_of_ne (hr : q ≠ r) (cs : List (CacheCall × CacheCall.Answer)) :
    of (cs.map (q, ·)) r = [] := by
  rw [of, List.filterMap_map]
  simp [hr]

end CallLog

namespace CacheOps

variable {ρ σ : Type}

/-- Caches that write down every call. -/
def recorded (D : CacheRef → CacheOps ρ) (r : CacheRef) : CacheOps (CallLog × ρ) where
  id s := (D r).id s.2
  size now s :=
    let (n, t) := (D r).size now s.2
    (n, s.1 ++ [(r, .size now, .counted n)], t)
  put now h k e s :=
    let (x, t) := (D r).put now h k e s.2
    (x, s.1 ++ [(r, .put now h k e, .stored x)], t)
  get now h k s :=
    let (x, h', t) := (D r).get now h k s.2
    (x, h', s.1 ++ [(r, .get now h k, .found x h')], t)
  remove now h k s :=
    let (x, h', t) := (D r).remove now h k s.2
    (x, h', s.1 ++ [(r, .remove now h k, .found x h')], t)
  clear now s := (s.1 ++ [(r, .clear now, .cleared)], (D r).clear now s.2)
  configure name value s := ((D r).configure name value s.2).map fun p => (p.1, s.1, p.2)
  stats s := (D r).stats s.2
  resetStats s := (s.1, (D r).resetStats s.2)

/-- Caches with nothing in common. -/
def each (C : CacheOps σ) (r : CacheRef) : CacheOps (CacheRef → σ) where
  id s := C.id (s r)
  size now s :=
    let (n, t) := C.size now (s r)
    (n, Function.update s r t)
  put now h k e s :=
    let (x, t) := C.put now h k e (s r)
    (x, Function.update s r t)
  get now h k s :=
    let (x, h', t) := C.get now h k (s r)
    (x, h', Function.update s r t)
  remove now h k s :=
    let (x, h', t) := C.remove now h k (s r)
    (x, h', Function.update s r t)
  clear now s := Function.update s r (C.clear now (s r))
  configure name value s :=
    (C.configure name value (s r)).map fun p => (p.1, Function.update s r p.2)
  stats s := C.stats (s r)
  resetStats s := Function.update s r (C.resetStats (s r))

/-- Caches that keep what was put until the same key is put again or the same cache is cleared. In
a state `s`, `has r k e s` says that the cache `r` holds `e` for `k`. -/
structure Stores (D : CacheRef → CacheOps ρ) (has : CacheRef → Key → Entry → ρ → Prop) : Prop where
  put : ∀ {r now h k e s}, ((D r).put now h k e s).1 = .ok () →
    has r k e ((D r).put now h k e s).2
  keeps_put : ∀ {r k e s}, has r k e s → ∀ {q j}, (q ≠ r ∨ j ≠ k) → ∀ now h e',
    has r k e ((D q).put now h j e' s).2
  keeps_clear : ∀ {r k e s}, has r k e s → ∀ {q}, q ≠ r → ∀ now, has r k e ((D q).clear now s)

/-- Stores of which the puts with some numbers fail. The puts to all of them are counted. -/
def unreliable (fails : Nat → Option Fault) (r : CacheRef) :
    CacheOps (Nat × (CacheRef → Entries)) where
  id _ := toString r.index
  size _ s := ((s.2 r).size, s)
  put _ _ k e s :=
    match fails s.1 with
    | some f => (.error f, s.1 + 1, s.2)
    | none => (.ok (), s.1 + 1, Function.update s.2 r ((s.2 r).insert k e))
  get _ h k s := (.ok ((s.2 r).get? k), h, s)
  remove _ h k s := (.ok ((s.2 r).get? k), h, s.1, Function.update s.2 r ((s.2 r).erase k))
  clear _ s := (s.1, Function.update s.2 r .empty)
  configure _ _ s := .ok (false, s)
  stats _ := none
  resetStats s := s

/-- Whichever puts fail, the others store. -/
theorem stores_unreliable (fails : Nat → Option Fault) :
    Stores (unreliable fails) fun r k e s => (s.2 r).get? k = some e where
  put := by
    intro r now h k e s hput
    rw [unreliable] at hput ⊢
    dsimp only at hput ⊢
    cases hf : fails s.1 with
    | some f =>
      rw [hf] at hput
      cases hput
    | none => simp
  keeps_put := by
    intro r k e s hs q j hqj now h e'
    rw [unreliable]
    dsimp only
    cases fails s.1 with
    | some f => exact hs
    | none =>
      by_cases hq : q = r
      · subst hq
        have hj : k ≠ j := (hqj.resolve_left (· rfl)).symm
        simp [Table.get?_insert_of_ne _ _ hj, hs]
      · simp [Function.update_of_ne (Ne.symm hq), hs]
  keeps_clear := by
    intro r k e s hs q hq now
    rw [unreliable]
    dsimp only
    rwa [Function.update_of_ne (Ne.symm hq)]

end CacheOps

namespace Buffer

open CacheOps

section Puts

variable {ρ : Type}

/-- The puts that store entries, each with what it returned. -/
def puts (C : CacheOps ρ) (h : Heap) :
    Instant → List (Key × Entry) → ρ → List (CacheCall × CacheCall.Answer)
  | _, [], _ => []
  | now, (k, e) :: rest, s =>
    (.put now h k e, .stored (C.put now h k e s).1) ::
      puts C h (now + 1) rest (C.put now h k e s).2

/-- All that a commit asks of its cache, with what was returned. -/
def attempts (C : CacheOps ρ) (now : Instant) (h : Heap) (b : Buffer) (s : ρ) :
    List (CacheCall × CacheCall.Answer) :=
  (if b.clearing then [(.clear now, .cleared)] else []) ++
    puts C h (now + 1) b.writes (if b.clearing then C.clear now s else s)

/-- The calls that publish a buffer: a clear if the buffer asks for one, and then one put for each
key that was put or missed, of what was put or else of the absence. -/
def Publishes (h : Heap) (b : Buffer) (cs : List (CacheCall × CacheCall.Answer)) : Prop :=
  ∃ t puts ws, cs = (if b.clearing then [(.clear t, .cleared)] else []) ++ puts ∧
    List.Forall₂ (fun c w => ∃ t x, c = (.put t h w.1 w.2, .stored x)) puts ws ∧
    (ws.map Prod.fst).Nodup ∧
    ∀ k e, (k, e) ∈ ws ↔ b.pending.get? k = some e ∨
      (b.pending.get? k = none ∧ k ∈ b.missed ∧ e = .absence)

variable {C : CacheOps ρ} {D : CacheRef → CacheOps ρ} {r q : CacheRef} {h : Heap}
  {now : Instant} {ws : List (Key × Entry)} {b : Buffer} {s : ρ} {log : CallLog}

theorem puts_forall₂ :
    List.Forall₂ (fun c w => ∃ t x, c = (.put t h w.1 w.2, .stored x)) (puts C h now ws s) ws := by
  induction ws generalizing now s with
  | nil => exact .nil
  | cons w ws ih => exact .cons ⟨now, _, rfl⟩ ih

/-- A buffer lists no missed key twice, whatever calls it gets and whatever fails. -/
theorem nodup_missed_run (c : WorkCall) {m : Buffer × ρ} (hm : m.1.missed.Nodup) :
    (c.run C m).1.missed.Nodup := by
  obtain ⟨b, s⟩ := m
  cases c with
  | get now h k =>
    rw [WorkCall.run, Buffer.get]
    dsimp only
    split
    · exact hm
    · split
      · exact hm
      · rename_i hk
        split
        · exact hm
        · rw [miss, if_neg hk]
          exact List.nodup_cons.2 ⟨hk, hm⟩
        · exact hm
  | put k e => exact hm
  | clear => exact hm
  | release now h k =>
    rw [WorkCall.run, release]
    split
    · exact hm.filter _
    · exact hm
  | commit now h w => exact .nil
  | rollback now h w => exact .nil

/-- A commit makes the calls that publish the buffer, whatever fails. -/
theorem publishes_attempts (hb : b.missed.Nodup) : b.Publishes h (b.attempts C now h s) :=
  ⟨now, _, b.writes, rfl, puts_forall₂, UnitOfWork.nodup_writes hb, fun _ _ => pair_mem_writes⟩

/-- An empty buffer has nothing to publish. -/
theorem attempts_empty : empty.attempts C now h s = [] := rfl

theorem storeAll_cons (w : Key × Entry) : storeAll C h now (w :: ws) s =
    (.first (C.put now h w.1 w.2 s).1 (storeAll C h (now + 1) ws (C.put now h w.1 w.2 s).2).1,
      (storeAll C h (now + 1) ws (C.put now h w.1 w.2 s).2).2) := by
  obtain ⟨k, e⟩ := w
  rw [storeAll]
  rcases C.put now h k e s with ⟨_ | _, t⟩ <;> rfl

/-- Storing entries makes all the puts and reports the first fault. -/
theorem storeAll_recorded : storeAll (recorded D r) h now ws (log, s) =
    ((storeAll (D r) h now ws s).1, log ++ (puts (D r) h now ws s).map (r, ·),
      (storeAll (D r) h now ws s).2) := by
  induction ws generalizing now s log with
  | nil => rw [storeAll, puts, List.map_nil, List.append_nil]; rfl
  | cons w ws ih =>
    have hput : (recorded D r).put now h w.1 w.2 (log, s) =
        (((D r).put now h w.1 w.2 s).1,
          log ++ [(r, .put now h w.1 w.2, .stored ((D r).put now h w.1 w.2 s).1)],
          ((D r).put now h w.1 w.2 s).2) := rfl
    rw [storeAll_cons, storeAll_cons, hput, ih, puts, List.map_cons, List.append_assoc]
    rfl

theorem outcome_puts : CallLog.outcome ((puts C h now ws s).map (r, ·)) =
    (storeAll C h now ws s).1 := by
  induction ws generalizing now s with
  | nil => rfl
  | cons w ws ih =>
    rw [storeAll_cons, puts, List.map_cons, ← List.singleton_append, CallLog.outcome_append, ih]
    cases (C.put now h w.1 w.2 s).1 <;> rfl

theorem commit_eq : b.commit C now h s =
    ((storeAll C h (now + 1) b.writes (if b.clearing then C.clear now s else s)).1, .empty,
      (storeAll C h (now + 1) b.writes (if b.clearing then C.clear now s else s)).2) := rfl

/-- A commit makes all its attempts and reports the first fault. -/
theorem commit_recorded : b.commit (recorded D r) now h (log, s) =
    ((b.commit (D r) now h s).1, .empty, log ++ (b.attempts (D r) now h s).map (r, ·),
      (b.commit (D r) now h s).2.2) := by
  have hcleared : (if b.clearing then (recorded D r).clear now (log, s) else (log, s)) =
      (log ++ (if b.clearing then [(CacheCall.clear now, .cleared)] else []).map (r, ·),
        if b.clearing then (D r).clear now s else s) := by
    cases b.clearing
    · rw [if_neg Bool.false_ne_true, if_neg Bool.false_ne_true, if_neg Bool.false_ne_true,
        List.map_nil, List.append_nil]
    · rfl
  rw [commit_eq, commit_eq, hcleared, storeAll_recorded, attempts, List.map_append,
    List.append_assoc]

theorem outcome_attempts : CallLog.outcome ((b.attempts C now h s).map (r, ·)) =
    (b.commit C now h s).1 := by
  have hclear : CallLog.outcome
      ((if b.clearing then [(CacheCall.clear now, .cleared)] else []).map (r, ·)) = .ok () := by
    cases b.clearing <;> rfl
  rw [attempts, List.map_append, CallLog.outcome_append, outcome_puts, hclear, commit_eq]
  rfl

theorem storeAll_each {s : CacheRef → ρ} : storeAll (each C r) h now ws s =
    ((storeAll C h now ws (s r)).1, Function.update s r (storeAll C h now ws (s r)).2) := by
  induction ws generalizing now s with
  | nil => rw [storeAll, storeAll, Function.update_eq_self]
  | cons w ws ih =>
    have hput : (each C r).put now h w.1 w.2 s = ((C.put now h w.1 w.2 (s r)).1,
        Function.update s r (C.put now h w.1 w.2 (s r)).2) := rfl
    rw [storeAll_cons, storeAll_cons, hput]
    dsimp only
    rw [ih, Function.update_self, Function.update_idem]

/-- A commit over caches with nothing in common changes the one that is behind the buffer. -/
theorem commit_each {s : CacheRef → ρ} : b.commit (each C r) now h s =
    ((b.commit C now h (s r)).1, .empty,
      Function.update s r (b.commit C now h (s r)).2.2) := by
  have hcleared : (if b.clearing then (each C r).clear now s else s) =
      Function.update s r (if b.clearing then C.clear now (s r) else s r) := by
    cases b.clearing
    · exact (Function.update_eq_self r s).symm
    · rfl
  rw [commit_eq, commit_eq, hcleared, storeAll_each, Function.update_self, Function.update_idem]

section Stores

variable {has : CacheRef → Key → Entry → ρ → Prop} {k : Key} {e : Entry}

/-- Storing other keys, or in another cache, leaves what a cache holds. -/
theorem storeAll_keeps (hD : Stores D has) (hs : has r k e s)
    (hws : q ≠ r ∨ k ∉ ws.map Prod.fst) : has r k e (storeAll (D q) h now ws s).2 := by
  induction ws generalizing now s with
  | nil => exact hs
  | cons w ws ih =>
    rw [List.map_cons, List.mem_cons, not_or] at hws
    rw [storeAll_cons]
    exact ih (hD.keeps_put hs (hws.imp_right fun hw => Ne.symm hw.1) now h w.2)
      (hws.imp_right And.right)

/-- Every entry whose put succeeded is stored when all puts are made. -/
theorem storeAll_stores (hD : Stores D has) (hws : (ws.map Prod.fst).Nodup) {t : Instant}
    {g : Heap} (hput : (.put t g k e, .stored (.ok ())) ∈ puts (D r) h now ws s) :
    has r k e (storeAll (D r) h now ws s).2 := by
  induction ws generalizing now s with
  | nil => cases hput
  | cons w ws ih =>
    obtain ⟨hw, hws'⟩ := List.nodup_cons.1 hws
    rw [storeAll_cons]
    rcases List.mem_cons.1 hput with heq | hlater
    · obtain ⟨hcall, hanswer⟩ := Prod.mk.inj heq
      cases hcall
      injection hanswer with hok
      exact storeAll_keeps hD (hD.put hok.symm) (.inr hw)
    · exact ih hws' hlater

theorem commit_keeps (hD : Stores D has) (hs : has r k e s) (hq : q ≠ r) :
    has r k e (b.commit (D q) now h s).2.2 := by
  rw [commit_eq]
  refine storeAll_keeps hD ?_ (.inl hq)
  split
  · exact hD.keeps_clear hs hq now
  · exact hs

theorem commit_stores (hD : Stores D has) (hb : b.missed.Nodup) {t : Instant} {g : Heap}
    (hput : (.put t g k e, .stored (.ok ())) ∈ b.attempts (D r) now h s) :
    has r k e (b.commit (D r) now h s).2.2 := by
  rw [commit_eq]
  rcases List.mem_append.1 hput with hclear | hput
  · split at hclear <;> simp at hclear
  · exact storeAll_stores hD (UnitOfWork.nodup_writes hb) hput

end Stores

end Puts

end Buffer

namespace Buffers

open CacheOps

variable {ρ : Type}

/-- Commits buffers in front of any caches. All are tried; the first fault is reported. -/
def commitEach (D : CacheRef → CacheOps ρ) (h : Heap) :
    Instant → List (String × CacheRef × Buffer) → ρ →
      Result Unit × List (String × CacheRef × Buffer) × ρ
  | _, [], s => (.ok (), [], s)
  | now, (name, r, b) :: es, s =>
    let (first, b', s) := b.commit (D r) now h s
    let (others, es, s) := commitEach D h (now + b.span) es s
    (first.first others, (name, r, b') :: es, s)

/-- All that a commit asks of the caches, with what was returned. -/
def attemptsAll (D : CacheRef → CacheOps ρ) (h : Heap) :
    Instant → List (String × CacheRef × Buffer) → ρ → CallLog
  | _, [], _ => []
  | now, (_, r, b) :: es, s =>
    (b.attempts (D r) now h s).map (r, ·) ++
      attemptsAll D h (now + b.span) es (b.commit (D r) now h s).2.2

variable {D : CacheRef → CacheOps ρ} {h : Heap} {now : Instant}
  {es : List (String × CacheRef × Buffer)} {s : ρ} {r : CacheRef}

theorem commitEach_cons (e : String × CacheRef × Buffer) : commitEach D h now (e :: es) s =
    let (first, _, s') := e.2.2.commit (D e.2.1) now h s
    let others := commitEach D h (now + e.2.2.span) es s'
    (first.first others.1, (e.1, e.2.1, .empty) :: others.2.1, others.2.2) := rfl

/-- A commit makes all its attempts, whatever fails. -/
theorem commitEach_recorded (log : CallLog) : commitEach (recorded D) h now es (log, s) =
    ((commitEach D h now es s).1, (commitEach D h now es s).2.1,
      log ++ attemptsAll D h now es s, (commitEach D h now es s).2.2) := by
  induction es generalizing now s log with
  | nil => rw [attemptsAll, List.append_nil]; rfl
  | cons e es ih =>
    obtain ⟨id, q, b⟩ := e
    rw [commitEach, Buffer.commit_recorded]
    dsimp only
    rw [ih, attemptsAll, List.append_assoc]
    rfl

/-- The result of a commit is the first fault. -/
theorem outcome_attemptsAll : (attemptsAll D h now es s).outcome = (commitEach D h now es s).1 := by
  induction es generalizing now s with
  | nil => rfl
  | cons e es ih =>
    rw [attemptsAll, CallLog.outcome_append, Buffer.outcome_attempts, ih]
    rfl

/-- A commit leaves all buffers empty. -/
theorem buffers_commitEach : (commitEach D h now es s).2.1 =
    es.map fun e => (e.1, e.2.1, .empty) := by
  induction es generalizing now s with
  | nil => rfl
  | cons e es ih => exact congrArg ((e.1, e.2.1, Buffer.empty) :: ·) ih

theorem nodup_missed_inFront (hes : (es.map (·.2.1)).Nodup)
    (hmissed : ∀ e ∈ es, e.2.2.missed.Nodup) (r : CacheRef) : (inFront es r).missed.Nodup := by
  by_cases hr : r ∈ es.map (·.2.1)
  · obtain ⟨e, he, rfl⟩ := List.mem_map.1 hr
    rw [inFront_of_mem hes he]
    exact hmissed e he
  · rw [inFront_of_not_mem hr]
    exact .nil

/-- What a cache is asked is what the buffer in front of it asks. -/
theorem of_attemptsAll (D : CacheRef → CacheOps ρ) (h : Heap) (hes : (es.map (·.2.1)).Nodup)
    (now : Instant) (s : ρ) (r : CacheRef) :
    ∃ t s', (attemptsAll D h now es s).of r = (inFront es r).attempts (D r) t h s' := by
  induction es generalizing now s with
  | nil => exact ⟨now, s, rfl⟩
  | cons e es ih =>
    obtain ⟨id, q, b⟩ := e
    obtain ⟨hq, hes'⟩ := List.nodup_cons.1 hes
    obtain ⟨t, s', ht⟩ := ih hes' (now + b.span) (b.commit (D q) now h s).2.2
    rw [attemptsAll, CallLog.of_append, ht]
    by_cases hr : q = r
    · subst hr
      rw [inFront_of_not_mem hq, inFront_cons_self, CallLog.of_map_self, Buffer.attempts_empty,
        List.append_nil]
      exact ⟨now, s, rfl⟩
    · rw [inFront_cons_of_ne hr, CallLog.of_map_of_ne hr, List.nil_append]
      exact ⟨t, s', rfl⟩

section Stores

variable {has : CacheRef → Key → Entry → ρ → Prop} {k : Key} {e : Entry}

theorem commitEach_keeps (hD : Stores D has) (hs : has r k e s) (hr : r ∉ es.map (·.2.1)) :
    has r k e (commitEach D h now es s).2.2 := by
  induction es generalizing now s with
  | nil => exact hs
  | cons e es ih =>
    rw [List.map_cons, List.mem_cons, not_or] at hr
    exact ih (Buffer.commit_keeps hD hs (Ne.symm hr.1)) hr.2

/-- Every entry whose put succeeded is stored in the end. -/
theorem commitEach_stores (hD : Stores D has) (hes : (es.map (·.2.1)).Nodup)
    (hmissed : ∀ e ∈ es, e.2.2.missed.Nodup) {t : Instant} {g : Heap}
    (hput : (r, .put t g k e, .stored (.ok ())) ∈ attemptsAll D h now es s) :
    has r k e (commitEach D h now es s).2.2 := by
  induction es generalizing now s with
  | nil => cases hput
  | cons e es ih =>
    obtain ⟨hq, hes'⟩ := List.nodup_cons.1 hes
    obtain ⟨hb, hmissed'⟩ := List.forall_mem_cons.1 hmissed
    rcases List.mem_append.1 hput with hput | hput
    · obtain ⟨c, hc, heq⟩ := List.mem_map.1 hput
      cases heq
      rw [commitEach_cons]
      exact commitEach_keeps hD (Buffer.commit_stores hD hb hc) hq
    · exact ih hes' hmissed' hput

end Stores

/-- The commit of a unit of work is the commit over the caches of the pool. -/
theorem commitEach_pool (p : Pool) : commitEach (each Cache.ops) h now es p.get =
    ((commitAll h now es p).1, es.map fun e => (e.1, e.2.1, .empty),
      (commitAll h now es p).2.get) := by
  induction es generalizing now p with
  | nil => rfl
  | cons e es ih =>
    obtain ⟨id, q, b⟩ := e
    rw [commitEach, Buffer.commit_each]
    dsimp only
    rw [← Pool.get_set_eq, ih, commitAll]
    dsimp only
    cases (b.commit Cache.ops now h (p.get q)).1 <;> rfl

/-- A commit tries everything. Over the caches of a pool it is the commit of a unit of work; over
any caches, whichever puts fail, each cache gets the calls that publish the buffer in front of it
and no others, the result is the first fault that a put returned, every buffer is empty afterwards,
and every entry whose put succeeded is stored if the caches store what is put. -/
theorem commit_tries_everything (bs : Buffers) (hes : (bs.byId.entries.map (·.2.1)).Nodup)
    (hmissed : ∀ e ∈ bs.byId.entries, e.2.2.missed.Nodup) (now : Instant) (h : Heap) :
    (∀ p, commitEach (each Cache.ops) h now bs.byId.entries p.get =
      ((bs.commit now h p).1, (bs.commit now h p).2.1.byId.entries,
        (bs.commit now h p).2.2.get)) ∧
    ∀ (ρ : Type) (D : CacheRef → CacheOps ρ) (s : ρ), ∃ log s',
      commitEach D h now bs.byId.entries s = (log.outcome, bs.emptied.byId.entries, s') ∧
      commitEach (recorded D) h now bs.byId.entries ([], s) =
        (log.outcome, bs.emptied.byId.entries, log, s') ∧
      (∀ r, (inFront bs.byId.entries r).Publishes h (log.of r)) ∧
      ∀ has, Stores D has → ∀ r t g k e,
        (r, .put t g k e, .stored (.ok ())) ∈ log → has r k e s' := by
  refine ⟨fun p => commitEach_pool p, fun ρ D s => ?_⟩
  have hbuffers : (commitEach D h now bs.byId.entries s).2.1 = bs.emptied.byId.entries :=
    buffers_commitEach
  have hcommit : commitEach D h now bs.byId.entries s =
      ((attemptsAll D h now bs.byId.entries s).outcome, bs.emptied.byId.entries,
        (commitEach D h now bs.byId.entries s).2.2) := by
    rw [outcome_attemptsAll, ← hbuffers]
  refine ⟨attemptsAll D h now bs.byId.entries s, _, hcommit, ?_, fun r => ?_,
    fun has hD r t g k e hput => commitEach_stores hD hes hmissed hput⟩
  · rw [commitEach_recorded, List.nil_append, hcommit]
  · obtain ⟨t, s', hof⟩ := of_attemptsAll D h hes now s r
    rw [hof]
    exact Buffer.publishes_attempts (nodup_missed_inFront hes hmissed r)

/-- The first put of a commit fails. -/
def refuseFirst (n : Nat) : Option Fault := if n = 0 then some (Store.refusal .put) else none

/-- Of two buffers the first asks for a clear, and misses a key that was put since. -/
def twoBuffers (k k' : Key) : Buffers where
  byId := ⟨[("posts", ⟨0⟩, ⟨true, ⟨[(k, .rows [.null])], by simp⟩, [k', k]⟩),
    ("users", ⟨1⟩, ⟨false, .empty, [k]⟩)], by simp⟩

/-- Where the first put fails, the others store their entries all the same. -/
theorem commit_tries_everything_twoBuffers :
    let k : Key := .ofComponents .mixing [.int 1]
    let k' : Key := .ofComponents .mixing [.int 2]
    let bs := twoBuffers k k'
    (bs.byId.entries.map (·.2.1)).Nodup ∧ (∀ e ∈ bs.byId.entries, e.2.2.missed.Nodup) ∧
      ∃ s', commitEach (unreliable refuseFirst) .empty 0 bs.byId.entries (0, fun _ => .empty) =
          (.error (Store.refusal .put), bs.emptied.byId.entries, s') ∧
        (s'.2 ⟨0⟩).get? k' = some .absence ∧ (s'.2 ⟨1⟩).get? k = some .absence := by
  intro k k' bs
  have hes : (bs.byId.entries.map (·.2.1)).Nodup := by decide
  have hmissed : ∀ e ∈ bs.byId.entries, e.2.2.missed.Nodup := by decide +kernel
  obtain ⟨-, hcommit⟩ := commit_tries_everything bs hes hmissed 0 .empty
  obtain ⟨log, s', hrun, hrecorded, -, hstored⟩ :=
    hcommit _ (unreliable refuseFirst) (0, fun _ => .empty)
  have hlog : attemptsAll (unreliable refuseFirst) .empty 0 bs.byId.entries (0, fun _ => .empty) =
      log := by
    rw [commitEach_recorded] at hrecorded
    exact (Prod.mk.inj (Prod.mk.inj (Prod.mk.inj hrecorded).2).2).1
  have houtcome : log.outcome = .error (Store.refusal .put) := by
    rw [← hlog]
    rfl
  have hposts : (⟨0⟩, .put 2 .empty k' .absence, .stored (.ok ())) ∈ log := by
    rw [← hlog]
    exact .tail _ (.tail _ (.head _))
  have husers : (⟨1⟩, .put 6 .empty k .absence, .stored (.ok ())) ∈ log := by
    rw [← hlog]
    exact .tail _ (.tail _ (.tail _ (.head _)))
  rw [houtcome] at hrun
  have hkept := hstored _ (stores_unreliable refuseFirst)
  exact ⟨hes, hmissed, s', hrun, hkept _ _ _ _ _ hposts, hkept _ _ _ _ _ husers⟩

end Buffers
end ResultCache
