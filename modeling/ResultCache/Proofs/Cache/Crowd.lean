import Mathlib.Logic.Function.Basic
import ResultCache.Proofs.Cache.Calls

/-!
# Clients of a locking layer, step by step

Any number of clients call one locking layer at the same time. A call takes a few steps, and others
take theirs in between. A read locks its key with a new latch, or waits for the latch that is there;
then it reads below and unlocks the key again, unless it found nothing. A put or a removal does its
part below and then unlocks the key. Unlocking takes the latch out of the table and then opens it,
and whoever waited for it starts again. What is below does one thing at a time.

A client that read a key and did not find it computes the key until it unlocks it. In a `Disciplined`
run only such a client puts or removes the key.

`Crowd.step` is one step of one client. Everything a step can do is said once, in `Crowd.Does`. A
client that nobody gets in the way of does what the layer does (`Crowd.undisturbed`).
-/
namespace ResultCache

/-- What those who want a locked key wait for. -/
abbrev Latch := Nat

namespace Crowd

/-- A call about one key. -/
inductive Call where
  | get (k : Key)
  | put (k : Key) (e : Entry)
  | remove (k : Key)

def Call.key : Call → Key
  | get k | put k _ | remove k => k

/-- The call, made all at once. -/
def Call.atOnce (now : Instant) (h : Heap) : Call → CacheCall
  | get k => .get now h k
  | put k e => .put now h k e
  | remove k => .remove now h k

/-- How far a client is with its call. -/
inductive Phase where
  | resting
  | locking (k : Key)
  | waiting (k : Key) (l : Latch)
  | reading (k : Key)
  | storing (k : Key) (e : Entry)
  | removing (k : Key)
  | unlocking (c : Call) (a : CacheCall.Answer)
  | opening (c : Call) (l : Latch) (a : CacheCall.Answer)

def Call.start : Call → Phase
  | get k => .locking k
  | put k e => .storing k e
  | remove k => .removing k

structure Client where
  phase : Phase
  /-- the keys that it read and did not find, and has not unlocked since -/
  computing : List Key

def Client.resting : Client := ⟨.resting, []⟩

/-- A client goes on to another phase. -/
def Client.enter (c : Client) (p : Phase) : Client := { c with phase := p }

/-- A client that did not find a key. -/
def Client.miss (c : Client) (k : Key) : Client := ⟨.resting, k :: c.computing⟩

/-- A client that unlocks a key and goes on to another phase. -/
def Client.release (c : Client) (k : Key) (p : Phase) : Client :=
  ⟨p, c.computing.filter (· ≠ k)⟩

/-- A call that has returned. -/
structure Return where
  client : Nat
  call : Call
  answer : CacheCall.Answer

/-- What a client can do next. -/
inductive Move where
  | call (c : Call)
  | clear (now : Instant)
  /-- the next step of its call -/
  | go (now : Instant) (h : Heap)
  /-- to give up waiting -/
  | expire (h : Heap)

end Crowd

/-- Clients of a locking layer. -/
structure Crowd (σ : Type) where
  timeout : Option Nat
  /-- the locked keys, each with its latch -/
  latches : Table Key Latch
  opened : List Latch
  /-- how many latches were made -/
  made : Nat
  below : σ
  clients : Nat → Crowd.Client

namespace Crowd

variable {σ : Type}

/-- No key is locked and no client calls. -/
def start (timeout : Option Nat) (below : σ) : Crowd σ :=
  ⟨timeout, .empty, [], 0, below, fun _ => .resting⟩

def withClient (s : Crowd σ) (i : Nat) (c : Client) : Crowd σ :=
  { s with clients := Function.update s.clients i c }

@[simp] theorem clients_withClient_self (s : Crowd σ) (i : Nat) (c : Client) :
    (s.withClient i c).clients i = c := by
  simp [withClient]

theorem clients_withClient_of_ne (s : Crowd σ) {i j : Nat} (c : Client) (hj : j ≠ i) :
    (s.withClient i c).clients j = s.clients j := by
  simp [withClient, hj]

/-- Locks a key with a new latch. -/
def lock (s : Crowd σ) (k : Key) : Crowd σ :=
  { s with latches := s.latches.insert k s.made, made := s.made + 1 }

/-- Takes the latch of a key out of the table. -/
def unlock (s : Crowd σ) (k : Key) : Crowd σ := { s with latches := s.latches.erase k }

/-- Lets go on whoever waits for a latch. -/
def openLatch (s : Crowd σ) (l : Latch) : Crowd σ := { s with opened := l :: s.opened }

def withBelow (s : Crowd σ) (under : σ) : Crowd σ := { s with below := under }

variable (B : CacheOps σ)

/-- The next step of the call that a client is in. -/
def go (now : Instant) (h : Heap) (i : Nat) (s : Crowd σ) : Option Return × Crowd σ :=
  let c := s.clients i
  match c.phase with
  | .resting => (none, s)
  | .locking k =>
    match s.latches.get? k with
    | none => (none, (s.lock k).withClient i (c.enter (.reading k)))
    | some l => (none, s.withClient i (c.enter (.waiting k l)))
  | .waiting k l => (none, if l ∈ s.opened then s.withClient i (c.enter (.locking k)) else s)
  | .reading k =>
    match B.get now h k s.below with
    | (.ok none, h, under) =>
      (some ⟨i, .get k, .found (.ok none) h⟩, (s.withBelow under).withClient i (c.miss k))
    | (r, h, under) =>
      (none, (s.withBelow under).withClient i (c.enter (.unlocking (.get k) (.found r h))))
  | .storing k e =>
    let (r, under) := B.put now h k e s.below
    (none, (s.withBelow under).withClient i (c.enter (.unlocking (.put k e) (.stored r))))
  | .removing k =>
    let (r, h, under) := B.remove now h k s.below
    (none, (s.withBelow under).withClient i (c.enter (.unlocking (.remove k) (.found r h))))
  | .unlocking d a =>
    match s.latches.get? d.key with
    | none => (some ⟨i, d, a⟩, s.withClient i (c.release d.key .resting))
    | some l => (none, (s.unlock d.key).withClient i (c.release d.key (.opening d l a)))
  | .opening d l a => (some ⟨i, d, a⟩, (s.openLatch l).withClient i (c.enter .resting))

/-- A client gives up waiting, if the latch is still shut and there is a timeout. -/
def expire (h : Heap) (i : Nat) (s : Crowd σ) : Option Return × Crowd σ :=
  match (s.clients i).phase, s.timeout with
  | .waiting k l, some ms =>
    if l ∈ s.opened then (none, s)
    else (some ⟨i, .get k, .found (.error (.lockTimeout k.text (B.id s.below) ms)) h⟩,
      s.withClient i ((s.clients i).enter .resting))
  | _, _ => (none, s)

/-- One client makes one move. A move that the client cannot make does nothing. -/
def step (i : Nat) (m : Move) (s : Crowd σ) : Option Return × Crowd σ :=
  match m, (s.clients i).phase with
  | .call c, .resting => (none, s.withClient i ((s.clients i).enter c.start))
  | .clear now, .resting => (none, s.withBelow (B.clear now s.below))
  | .go now h, _ => s.go B now h i
  | .expire h, _ => s.expire B h i
  | _, _ => (none, s)

@[simp] theorem step_go (i : Nat) (now : Instant) (h : Heap) (s : Crowd σ) :
    s.step B i (.go now h) = s.go B now h i := rfl

theorem go_resting {s : Crowd σ} {i : Nat} (hi : (s.clients i).phase = .resting) (now : Instant)
    (h : Heap) : s.go B now h i = (none, s) := by
  rw [go]
  simp [hi]

theorem step_call {s : Crowd σ} {i : Nat} (hi : (s.clients i).phase = .resting) (c : Call) :
    s.step B i (.call c) = (none, s.withClient i ((s.clients i).enter c.start)) := by
  simp [step, hi]

/-- The crowd after some moves, of which the latest is listed first. -/
def after (s : Crowd σ) : List (Nat × Move) → Crowd σ
  | [] => s
  | (i, m) :: past => ((after s past).step B i m).2

/-- What returned in the course of some moves. -/
def returns (s : Crowd σ) : List (Nat × Move) → List Return
  | [] => []
  | (i, m) :: past => ((after B s past).step B i m).1.toList ++ returns s past

/-- Whether a client read a key without finding it, and has not unlocked the key since. With the
unlocking its put or removal is over for all others: the rest of it opens the latch and returns. -/
def Computes (s : Crowd σ) (i : Nat) (k : Key) : Prop := k ∈ (s.clients i).computing

/-- Whether a client may make a move: it puts and removes only keys it computes. -/
def Move.Allowed (s : Crowd σ) (i : Nat) : Move → Prop
  | .call (.put k _) | .call (.remove k) => s.Computes i k
  | _ => True

/-- All moves were allowed when they were made. -/
def Disciplined (s : Crowd σ) : List (Nat × Move) → Prop
  | [] => True
  | (i, m) :: past => m.Allowed (after B s past) i ∧ Disciplined s past

theorem after_append (s : Crowd σ) (later past : List (Nat × Move)) :
    after B s (later ++ past) = after B (after B s past) later := by
  induction later with
  | nil => rfl
  | cons e later ih => rw [List.cons_append, after, after, ih]

theorem returns_append (s : Crowd σ) (later past : List (Nat × Move)) :
    returns B s (later ++ past) = returns B (after B s past) later ++ returns B s past := by
  induction later with
  | nil => rfl
  | cons e later ih =>
    rw [List.cons_append, returns, returns, ih, after_append, List.append_assoc]

/-- An allowed move of the client `i` returns a call or none, and leaves this of the crowd. -/
inductive Does (s : Crowd σ) (i : Nat) : Option Return → Crowd σ → Prop where
  | pass (under : σ) : Does s i none (s.withBelow under)
  | start (c : Call) (hphase : (s.clients i).phase = .resting) (hc : (Move.call c).Allowed s i) :
      Does s i none (s.withClient i ((s.clients i).enter c.start))
  | lock {k : Key} (hphase : (s.clients i).phase = .locking k) (hfree : s.latches.get? k = none) :
      Does s i none ((s.lock k).withClient i ((s.clients i).enter (.reading k)))
  | wait {k : Key} {l : Latch} (hphase : (s.clients i).phase = .locking k)
      (hlocked : s.latches.get? k = some l) :
      Does s i none (s.withClient i ((s.clients i).enter (.waiting k l)))
  | wake {k : Key} {l : Latch} (hphase : (s.clients i).phase = .waiting k l) :
      Does s i none (s.withClient i ((s.clients i).enter (.locking k)))
  | miss {k : Key} (hphase : (s.clients i).phase = .reading k) (h : Heap) (under : σ) :
      Does s i (some ⟨i, .get k, .found (.ok none) h⟩)
        ((s.withBelow under).withClient i ((s.clients i).miss k))
  | read {k : Key} (hphase : (s.clients i).phase = .reading k) (r : Result (Option Entry))
      (h : Heap) (under : σ) :
      Does s i none
        ((s.withBelow under).withClient i
          ((s.clients i).enter (.unlocking (.get k) (.found r h))))
  | store {k : Key} {e : Entry} (hphase : (s.clients i).phase = .storing k e) (r : Result Unit)
      (under : σ) :
      Does s i none
        ((s.withBelow under).withClient i
          ((s.clients i).enter (.unlocking (.put k e) (.stored r))))
  | remove {k : Key} (hphase : (s.clients i).phase = .removing k) (r : Result (Option Entry))
      (h : Heap) (under : σ) :
      Does s i none
        ((s.withBelow under).withClient i
          ((s.clients i).enter (.unlocking (.remove k) (.found r h))))
  | unlock {c : Call} {a : CacheCall.Answer} {l : Latch}
      (hphase : (s.clients i).phase = .unlocking c a) (hlocked : s.latches.get? c.key = some l) :
      Does s i none
        ((s.unlock c.key).withClient i ((s.clients i).release c.key (.opening c l a)))
  | free {c : Call} {a : CacheCall.Answer} (hphase : (s.clients i).phase = .unlocking c a)
      (hfree : s.latches.get? c.key = none) :
      Does s i (some ⟨i, c, a⟩) (s.withClient i ((s.clients i).release c.key .resting))
  | opened {c : Call} {a : CacheCall.Answer} {l : Latch}
      (hphase : (s.clients i).phase = .opening c l a) :
      Does s i (some ⟨i, c, a⟩) ((s.openLatch l).withClient i ((s.clients i).enter .resting))
  | expire {k : Key} {l : Latch} (hphase : (s.clients i).phase = .waiting k l)
      (hshut : l ∉ s.opened) (cache : String) (ms : Nat) (h : Heap) :
      Does s i (some ⟨i, .get k, .found (.error (.lockTimeout k.text cache ms)) h⟩)
        (s.withClient i ((s.clients i).enter .resting))

variable {B}

theorem does_go (now : Instant) (h : Heap) (i : Nat) (s : Crowd σ) :
    s.Does i (s.go B now h i).1 (s.go B now h i).2 := by
  rw [go]
  cases hphase : (s.clients i).phase with
  | resting => exact .pass s.below
  | locking k =>
    dsimp only
    cases hk : s.latches.get? k with
    | none => exact .lock hphase hk
    | some l => exact .wait hphase hk
  | waiting k l =>
    dsimp only
    split
    · exact .wake hphase
    · exact .pass s.below
  | reading k =>
    dsimp only
    rcases B.get now h k s.below with ⟨_ | _ | _, h', under⟩
    · exact .read hphase _ h' under
    · exact .miss hphase h' under
    · exact .read hphase _ h' under
  | storing k e => exact .store hphase _ _
  | removing k => exact .remove hphase _ _ _
  | unlocking c a =>
    dsimp only
    cases hk : s.latches.get? c.key with
    | none => exact .free hphase hk
    | some l => exact .unlock hphase hk
  | opening c l a => exact .opened hphase

theorem does_expire (h : Heap) (i : Nat) (s : Crowd σ) :
    s.Does i (s.expire B h i).1 (s.expire B h i).2 := by
  rw [Crowd.expire]
  split
  · rename_i k l ms hphase _
    split
    · exact .pass s.below
    · exact .expire hphase ‹_› (B.id s.below) ms h
  · exact .pass s.below

theorem does_step {i : Nat} {m : Move} {s : Crowd σ} (hm : m.Allowed s i) :
    s.Does i (s.step B i m).1 (s.step B i m).2 := by
  unfold step
  split
  · exact .start _ ‹_› hm
  · exact .pass _
  · exact does_go _ _ i s
  · exact does_expire _ i s
  · exact .pass s.below

/-- The same keys are locked over the same cache as in a state of the layer. -/
structure Shows (s : Crowd σ) (m : Gate × σ) : Prop where
  timeout : s.timeout = m.1.timeout
  locked : ∀ k, (s.latches.get? k).isSome ↔ k ∈ m.1.held
  below : s.below = m.2

section Alone

variable {s : Crowd σ} {m : Gate × σ} {i : Nat}

/-- What a client does has no part in what is locked. -/
theorem Shows.withClient (hs : s.Shows m) (c : Client) : (s.withClient i c).Shows m :=
  ⟨hs.timeout, hs.locked, hs.below⟩

theorem Shows.withBelow (hs : s.Shows m) (under : σ) : (s.withBelow under).Shows (m.1, under) :=
  ⟨hs.timeout, hs.locked, rfl⟩

theorem Shows.openLatch (hs : s.Shows m) (l : Latch) : (s.openLatch l).Shows m :=
  ⟨hs.timeout, hs.locked, hs.below⟩

theorem Shows.lock (hs : s.Shows m) (k : Key) : (s.lock k).Shows (m.1.lock k, m.2) := by
  refine ⟨hs.timeout, fun j => ?_, hs.below⟩
  rw [Gate.mem_held_lock, ← hs.locked]
  by_cases hj : j = k
  · subst hj
    simp [Crowd.lock]
  · simp [Crowd.lock, Table.get?_insert_of_ne _ _ hj, hj]

theorem Shows.unlock (hs : s.Shows m) (k : Key) : (s.unlock k).Shows (m.1.unlock k, m.2) := by
  refine ⟨hs.timeout, fun j => ?_, hs.below⟩
  rw [Gate.mem_held_unlock, ← hs.locked]
  by_cases hj : j = k
  · subst hj
    simp [Crowd.unlock]
  · simp [Crowd.unlock, Table.get?_erase_of_ne _ hj, hj]

/-- Where the key is not locked, nothing is left to unlock. -/
theorem Shows.unlock_of_free (hs : s.Shows m) {k : Key} (hk : s.latches.get? k = none) :
    s.Shows (m.1.unlock k, m.2) := by
  refine ⟨hs.timeout, fun j => ?_, hs.below⟩
  rw [Gate.mem_held_unlock, ← hs.locked]
  refine ⟨fun hj => ⟨hj, ?_⟩, And.left⟩
  rintro rfl
  simp [hk] at hj

/-- A key that was not locked is locked and unlocked again. -/
theorem Shows.relock {g : Gate} {under : σ} {k : Key} (hk : k ∉ g.held)
    (hs : s.Shows ((g.lock k).unlock k, under)) : s.Shows (g, under) := by
  refine ⟨hs.timeout, fun j => ?_, hs.below⟩
  rw [hs.locked, Gate.mem_held_unlock, Gate.mem_held_lock]
  constructor
  · rintro ⟨hj | hj, hne⟩
    · exact absurd hj hne
    · exact hj
  · intro hj
    refine ⟨.inr hj, ?_⟩
    rintro rfl
    exact hk hj

variable (B) in
/-- In the course of the moves the client's call returns the answer and nothing else returns. They
leave the layer in the state `m` and the client at rest. -/
structure Completes (s : Crowd σ) (i : Nat) (c : Call) (moves : List (Nat × Move))
    (a : CacheCall.Answer) (m : Gate × σ) : Prop where
  returns_eq : returns B s moves = [⟨i, c, a⟩]
  shows : (after B s moves).Shows m
  resting : ((after B s moves).clients i).phase = .resting

variable {c : Call} {moves : List (Nat × Move)} {a : CacheCall.Answer}

/-- A move that returns nothing may come first. -/
theorem Completes.cons {t : Crowd σ} {mv : Move} (hmv : s.step B i mv = (none, t))
    (ht : Completes B t i c moves a m) : Completes B s i c (moves ++ [(i, mv)]) a m := by
  have hafter : after B s [(i, mv)] = t := congrArg Prod.snd hmv
  have hreturns : returns B s [(i, mv)] = [] := by simp [returns, after, hmv]
  refine ⟨?_, ?_, ?_⟩
  · rw [returns_append, hafter, hreturns, ht.returns_eq, List.append_nil]
  · rw [after_append, hafter]
    exact ht.shows
  · rw [after_append, hafter]
    exact ht.resting

/-- Further steps of the client change nothing. -/
theorem Completes.idle (hs : Completes B s i c moves a m) (now : Instant) (h : Heap) :
    Completes B s i c ((i, .go now h) :: moves) a m := by
  have hgo := go_resting B hs.resting now h
  refine ⟨?_, ?_, ?_⟩
  · rw [returns, step_go, hgo, hs.returns_eq]
    rfl
  · rw [after, step_go, hgo]
    exact hs.shows
  · rw [after, step_go, hgo]
    exact hs.resting

/-- Two steps unlock a key and return. -/
theorem Shows.giveBack (hs : s.Shows m) (hi : (s.clients i).phase = .unlocking c a) (now : Instant)
    (h : Heap) :
    Completes B s i c [(i, .go now h), (i, .go now h)] a (m.1.unlock c.key, m.2) := by
  cases hk : s.latches.get? c.key with
  | none =>
    have hgo : s.go B now h i =
        (some ⟨i, c, a⟩, s.withClient i ((s.clients i).release c.key .resting)) := by
      simp [go, hi, hk]
    have hfree : Completes B s i c [(i, .go now h)] a (m.1.unlock c.key, m.2) := by
      refine ⟨?_, ?_, ?_⟩
      · simp [returns, after, hgo]
      · simpa only [after, step_go, hgo] using (hs.unlock_of_free hk).withClient _
      · simp [after, hgo, Client.release]
    exact hfree.idle now h
  | some l =>
    let t := (s.unlock c.key).withClient i ((s.clients i).release c.key (.opening c l a))
    have hgo : s.go B now h i = (none, t) := by simp [go, hi, hk, t]
    have ht : t.go B now h i =
        (some ⟨i, c, a⟩, (t.openLatch l).withClient i ((t.clients i).enter .resting)) := by
      simp [go, t, Client.release]
    have hopen : Completes B t i c [(i, .go now h)] a (m.1.unlock c.key, m.2) := by
      refine ⟨?_, ?_, ?_⟩
      · simp [returns, after, ht]
      · simpa only [after, step_go, ht] using
          (((hs.unlock c.key).withClient _).openLatch l).withClient _
      · simp [after, ht, Client.enter]
    exact hopen.cons (show s.step B i (.go now h) = (none, t) from hgo)

/-- The part below is done, and two more steps unlock the key. -/
theorem Shows.finish (hs : s.Shows m) (c : Call) (a : CacheCall.Answer) (under : σ) (now : Instant)
    (h : Heap) :
    Completes B ((s.withBelow under).withClient i ((s.clients i).enter (.unlocking c a))) i c
      [(i, .go now h), (i, .go now h)] a (m.1.unlock c.key, under) := by
  have hphase : (((s.withBelow under).withClient i
      ((s.clients i).enter (.unlocking c a))).clients i).phase = .unlocking c a := by
    simp [Client.enter]
  exact ((hs.withBelow under).withClient _).giveBack hphase now h

/-- A client that has locked its key reads, and unlocks the key unless it found nothing. -/
theorem Shows.read {g : Gate} {under : σ} {k : Key} (hk : k ∉ g.held)
    (hs : s.Shows (g.lock k, under)) (hi : (s.clients i).phase = .reading k) (now : Instant)
    (h : Heap) :
    let r := Gate.get B now h k (g, under)
    Completes B s i (.get k) [(i, .go now h), (i, .go now h), (i, .go now h)] (.found r.1 r.2.1)
      r.2.2 := by
  have hunlock : ∀ r h' under', s.step B i (.go now h) = (none, (s.withBelow under').withClient i
      ((s.clients i).enter (.unlocking (.get k) (.found r h')))) →
      Completes B s i (.get k) [(i, .go now h), (i, .go now h), (i, .go now h)] (.found r h')
        (g, under') := by
    intro r h' under' hgo
    obtain ⟨hreturns, hshows, hrest⟩ :=
      (hs.finish (B := B) (i := i) (.get k) (.found r h') under' now h).cons hgo
    exact ⟨hreturns, hshows.relock hk, hrest⟩
  rw [Gate.get, if_neg hk]
  rcases hB : B.get now h k under with ⟨f | _ | e, h', under'⟩
  case error => exact hunlock _ h' under' (by simp [go, hi, hs.below, hB])
  case ok.some => exact hunlock _ h' under' (by simp [go, hi, hs.below, hB])
  case ok.none =>
    have hgo : s.go B now h i = (some ⟨i, .get k, .found (.ok none) h'⟩,
        (s.withBelow under').withClient i ((s.clients i).miss k)) := by
      simp [go, hi, hs.below, hB]
    have hmiss : Completes B s i (.get k) [(i, .go now h)] (.found (.ok none) h')
        (g.lock k, under') := by
      refine ⟨?_, ?_, ?_⟩
      · simp [returns, after, hgo]
      · simpa only [after, step_go, hgo] using (hs.withBelow under').withClient _
      · simp [after, hgo, Client.miss]
    exact (hmiss.idle now h).idle now h

/-- A client alone does with the cache what the layer does, if it need not wait. -/
theorem undisturbed (hs : s.Shows m) (hi : (s.clients i).phase = .resting) (now : Instant)
    (h : Heap) (c : Call) (hfree : ∀ k, c = .get k → k ∉ m.1.held) :
    let r := (c.atOnce now h).run (Gate.ops B) m
    Completes B s i c
      [(i, .go now h), (i, .go now h), (i, .go now h), (i, .go now h), (i, .call c)] r.1 r.2 := by
  obtain ⟨g, under⟩ := m
  obtain rfl : s.below = under := hs.below
  let t := s.withClient i ((s.clients i).enter c.start)
  have ht : t.Shows (g, s.below) := hs.withClient _
  have hcall : s.step B i (.call c) = (none, t) := step_call B hi c
  -- A put and a removal do their part below at once.
  have hwrite : ∀ a under, t.step B i (.go now h) = (none, (t.withBelow under).withClient i
      ((t.clients i).enter (.unlocking c a))) →
      Completes B s i c
        [(i, .go now h), (i, .go now h), (i, .go now h), (i, .go now h), (i, .call c)] a
        (g.unlock c.key, under) := fun a under hgo =>
    (((ht.finish c a under now h).cons hgo).idle now h).cons hcall
  cases c with
  | get k =>
    have hk : k ∉ g.held := hfree k rfl
    have hlatch : s.latches.get? k = none := by
      rw [← hs.locked] at hk
      simpa using hk
    have hlock : t.step B i (.go now h) =
        (none, (t.lock k).withClient i ((t.clients i).enter (.reading k))) := by
      simp [go, t, Client.enter, Call.start, withClient, hlatch]
    have hphase : (((t.lock k).withClient i ((t.clients i).enter (.reading k))).clients i).phase =
        .reading k := by
      simp [Client.enter]
    have hread := ((ht.lock k).withClient _).read (B := B) hk hphase now h
    exact (hread.cons hlock).cons hcall
  | put k e =>
    exact hwrite (.stored (B.put now h k e s.below).1) (B.put now h k e s.below).2
      (by simp [go, t, Client.enter, Call.start, withClient])
  | remove k =>
    exact hwrite (.found (B.remove now h k s.below).1 (B.remove now h k s.below).2.1)
      (B.remove now h k s.below).2.2 (by simp [go, t, Client.enter, Call.start, withClient])

/-- A client that finds its key locked, and the latch shut, gives up with the timeout of the layer. -/
theorem gives_up (hs : s.Shows m) (hi : (s.clients i).phase = .resting) (now : Instant) (h : Heap)
    {k : Key} {ms : Nat} (htimeout : m.1.timeout = some ms) (hk : k ∈ m.1.held)
    (hshut : ∀ l ∈ s.latches.get? k, l ∉ s.opened) :
    let r := (CacheCall.get now h k).run (Gate.ops B) m
    Completes B s i (.get k) [(i, .expire h), (i, .go now h), (i, .call (.get k))] r.1 r.2 := by
  obtain ⟨g, under⟩ := m
  obtain rfl : s.below = under := hs.below
  obtain ⟨l, hl⟩ := Option.isSome_iff_exists.mp ((hs.locked k).mpr hk)
  let t := s.withClient i ((s.clients i).enter (.locking k))
  have hcall : s.step B i (.call (.get k)) = (none, t) := step_call B hi _
  let w := t.withClient i ((t.clients i).enter (.waiting k l))
  have hwait : t.step B i (.go now h) = (none, w) := by
    simp [go, t, w, Client.enter, withClient, hl]
  have hw : w.Shows (g, s.below) := (hs.withClient _).withClient _
  have hopened : l ∉ w.opened := hshut l hl
  have hexpire : w.step B i (.expire h) =
      (some ⟨i, .get k, .found (.error (g.waitFault k (B.id s.below))) h⟩,
        w.withClient i ((w.clients i).enter .resting)) := by
    have hphase : (w.clients i).phase = .waiting k l := by simp [w, Client.enter]
    have hms : w.timeout = some ms := hw.timeout.trans htimeout
    have htimeout : g.timeout = some ms := htimeout
    simp [step, Crowd.expire, hphase, hms, hopened, Gate.waitFault, htimeout, hw.below]
  have hend : Completes B w i (.get k) [(i, .expire h)]
      (.found (.error (g.waitFault k (B.id s.below))) h) (g, s.below) := by
    refine ⟨?_, ?_, ?_⟩
    · simp [returns, after, hexpire]
    · simpa only [after, hexpire] using hw.withClient _
    · simp [after, hexpire, Client.enter]
  have hrun : (CacheCall.get now h k).run (Gate.ops B) (g, s.below) =
      (.found (.error (g.waitFault k (B.id s.below))) h, g, s.below) := by
    simp [CacheCall.run, Gate.ops, Gate.get, show k ∈ g.held from hk]
  rw [hrun]
  exact (hend.cons hwait).cons hcall

end Alone

end Crowd

end ResultCache
