import ResultCache.Proofs.Cache.Crowd

/-!
# One client computes a missing key

A key is locked exactly while one client holds it: while the client reads it, while it is about to
unlock it after a hit or an error, or while it computes it. This is the invariant `Sound` of every
disciplined run. One move leaves each key as it is, or locks a free key for the client that moves,
or unlocks a key that this client held (`Does.turn`), and that is all the invariant needs.

Main result: `one_computes`.
-/
namespace ResultCache
namespace Crowd

/-- A client in this phase has locked the key to read it. -/
def Phase.Locks : Phase → Key → Prop
  | .reading k, j | .unlocking (.get k) _, j => j = k
  | _, _ => False

/-- A client in this phase puts or removes the key and has not unlocked it. -/
def Phase.Writes : Phase → Key → Prop
  | .storing k _, j | .removing k, j | .unlocking (.put k _) _, j | .unlocking (.remove k) _, j => j = k
  | _, _ => False

/-- A client in this phase wants to lock the key. -/
def Phase.Seeks : Phase → Key → Prop
  | .locking k, j | .waiting k _, j => j = k
  | _, _ => False

/-- A client in this phase has unlocked the key and is about to let those go on who wait for it. -/
def Phase.Opens : Phase → Key → Prop
  | .opening c _ _, j => j = c.key
  | _, _ => False

/-- How many steps a call takes from this phase, if it need not wait again. -/
def Phase.left : Phase → Nat
  | .resting => 0
  | .opening .. => 1
  | .unlocking .. => 2
  | .reading _ | .storing .. | .removing _ => 3
  | .locking _ => 4
  | .waiting .. => 5

theorem Phase.left_eq_zero {p : Phase} : p.left = 0 ↔ p = .resting := by
  cases p <;> simp [left]

/-- Whether a client has a key locked. -/
def Client.Holds (c : Client) (k : Key) : Prop := k ∈ c.computing ∨ c.phase.Locks k

/-- Whether a client has a key locked, or has unlocked it and not let the others know. -/
def Client.Occupies (c : Client) (k : Key) : Prop := c.Holds k ∨ c.phase.Opens k

/-- Whether a client reads the key, has unlocked it again and is about to return. -/
def Client.Answered (c : Client) (k : Key) : Prop := ∃ l a, c.phase = .opening (.get k) l a

/-- The call was a read that found nothing. -/
def Return.Missed (r : Return) : Prop :=
  ∃ k h, r.call = .get k ∧ r.answer = .found (.ok none) h

/-- The call was a read that waited for a locked key until its time was up. -/
def Return.TimedOut (r : Return) : Prop :=
  ∃ k cache ms h, r.call = .get k ∧ r.answer = .found (.error (.lockTimeout k.text cache ms)) h

@[simp] theorem Client.holds_enter (c : Client) (p : Phase) (k : Key) :
    (c.enter p).Holds k ↔ k ∈ c.computing ∨ p.Locks k := Iff.rfl

@[simp] theorem Client.holds_miss (c : Client) (k j : Key) :
    (c.miss k).Holds j ↔ j = k ∨ j ∈ c.computing := by
  simp [Client.Holds, Client.miss, Phase.Locks]

@[simp] theorem Client.holds_release (c : Client) (k : Key) (p : Phase) (j : Key) :
    (c.release k p).Holds j ↔ (j ∈ c.computing ∧ j ≠ k) ∨ p.Locks j := by
  simp [Client.Holds, Client.release]

theorem Client.holds_iff {c : Client} {p : Phase} (hp : c.phase = p) (k : Key) :
    c.Holds k ↔ k ∈ c.computing ∨ p.Locks k := by
  rw [Client.Holds, hp]

/-- A client that unlocks a key has locked it for its read, or puts or removes it. -/
theorem Phase.locks_or_writes (c : Call) (a : CacheCall.Answer) :
    (unlocking c a).Locks c.key ∨ (unlocking c a).Writes c.key := by
  cases c with
  | get k => exact .inl rfl
  | put k e => exact .inr rfl
  | remove k => exact .inr rfl

theorem Phase.eq_of_locks_unlocking {c : Call} {a : CacheCall.Answer} {k : Key}
    (hk : (unlocking c a).Locks k) : k = c.key := by
  cases c with
  | get j => exact hk
  | put j e => exact hk.elim
  | remove j => exact hk.elim

variable {σ : Type}

/-- The latch is in the table for the key, or the client that took it out is about to open it. -/
def Shut (s : Crowd σ) (k : Key) (l : Latch) : Prop :=
  s.latches.get? k = some l ∨ ∃ i c a, (s.clients i).phase = .opening c l a ∧ c.key = k

/-- The locked keys are those that some client holds, and no two clients hold the same. Whoever
waits for a latch can go on, or somebody has the key. -/
structure Sound (s : Crowd σ) : Prop where
  locked_iff : ∀ k, (s.latches.get? k).isSome ↔ ∃ i, (s.clients i).Holds k
  unique : ∀ {i j k}, (s.clients i).Holds k → (s.clients j).Holds k → i = j
  writes : ∀ {i k}, (s.clients i).phase.Writes k → k ∈ (s.clients i).computing
  opens : ∀ {i k}, (s.clients i).phase.Opens k → k ∉ (s.clients i).computing
  shut : ∀ {i k l}, (s.clients i).phase = .waiting k l → l ∈ s.opened ∨ s.Shut k l

theorem sound_start (timeout : Option Nat) (under : σ) : (start timeout under).Sound where
  locked_iff k := by simp [start, Client.resting, Client.Holds, Phase.Locks]
  unique h := by simp [start, Client.resting, Client.Holds, Phase.Locks] at h
  writes h := by simp [start, Client.resting, Phase.Writes] at h
  opens h := by simp [start, Client.resting, Phase.Opens] at h
  shut h := by simp [start, Client.resting] at h

section Step

variable {s t : Crowd σ} {i : Nat} {r : Option Return}

/-- A client that unlocks a key holds it. -/
theorem Sound.holds_of_unlocking (hs : s.Sound) {c : Call} {a : CacheCall.Answer}
    (hphase : (s.clients i).phase = .unlocking c a) : (s.clients i).Holds c.key := by
  rcases Phase.locks_or_writes c a with h | h <;> rw [← hphase] at h
  · exact .inr h
  · exact .inl (hs.writes h)

/-- A client's move is no part of what the others do. -/
theorem Does.clients_of_ne (hd : s.Does i r t) {j : Nat} (hj : j ≠ i) :
    t.clients j = s.clients j := by
  cases hd <;> first | rfl | exact clients_withClient_of_ne _ _ hj

theorem Does.holds_of_ne (hd : s.Does i r t) {j : Nat} (hj : j ≠ i) (k : Key) :
    (t.clients j).Holds k ↔ (s.clients j).Holds k := by
  rw [hd.clients_of_ne hj]

/-- What a move does to the lock of one key: nothing, or the client takes it, or gives it back. -/
theorem Does.turn (hd : s.Does i r t) (hs : s.Sound) (k : Key) :
    (t.latches.get? k = s.latches.get? k ∧ ((t.clients i).Holds k ↔ (s.clients i).Holds k)) ∨
    (s.latches.get? k = none ∧ (t.latches.get? k).isSome ∧ (t.clients i).Holds k) ∨
    ((s.clients i).Holds k ∧ t.latches.get? k = none ∧ ¬ (t.clients i).Holds k) := by
  cases hd with
  | pass under => exact .inl ⟨rfl, .rfl⟩
  | start c hphase =>
    refine .inl ⟨rfl, ?_⟩
    rw [clients_withClient_self, Client.holds_enter, Client.holds_iff hphase]
    cases c <;> rfl
  | @lock j hphase hfree =>
    by_cases hk : k = j
    · subst hk
      refine .inr (.inl ⟨hfree, ?_, ?_⟩)
      · simp [Crowd.lock, withClient]
      · rw [clients_withClient_self]
        exact .inr rfl
    · refine .inl ⟨Table.get?_insert_of_ne _ _ hk, ?_⟩
      simp [Client.holds_iff hphase, Phase.Locks, hk]
  | wait hphase hlocked =>
    refine .inl ⟨rfl, ?_⟩
    simp [Client.holds_iff hphase, Phase.Locks]
  | wake hphase =>
    refine .inl ⟨rfl, ?_⟩
    simp [Client.holds_iff hphase, Phase.Locks]
  | miss hphase h under =>
    refine .inl ⟨rfl, ?_⟩
    simp [Client.holds_iff hphase, Phase.Locks, or_comm]
  | read hphase r h under =>
    refine .inl ⟨rfl, ?_⟩
    simp [Client.holds_iff hphase, Phase.Locks]
  | store hphase r under =>
    refine .inl ⟨rfl, ?_⟩
    simp [Client.holds_iff hphase, Phase.Locks]
  | remove hphase r h under =>
    refine .inl ⟨rfl, ?_⟩
    simp [Client.holds_iff hphase, Phase.Locks]
  | @unlock c a l hphase hlocked =>
    by_cases hk : k = c.key
    · subst hk
      refine .inr (.inr ⟨hs.holds_of_unlocking hphase, Table.get?_erase_self _ _, ?_⟩)
      simp [Phase.Locks]
    · have hlocks : ¬ (Phase.unlocking c a).Locks k := fun h => hk (Phase.eq_of_locks_unlocking h)
      have hbefore : (s.clients i).Holds k ↔ k ∈ (s.clients i).computing :=
        (Client.holds_iff hphase k).trans (or_iff_left hlocks)
      refine .inl ⟨Table.get?_erase_of_ne _ hk, ?_⟩
      simp [hbefore, Phase.Locks, hk]
  | @free c a hphase hfree =>
    have hlocked := (hs.locked_iff c.key).mpr ⟨i, hs.holds_of_unlocking hphase⟩
    simp [hfree] at hlocked
  | opened hphase =>
    refine .inl ⟨rfl, ?_⟩
    simp [Client.holds_iff hphase, Phase.Locks]
  | expire hphase hshut cache ms h =>
    refine .inl ⟨rfl, ?_⟩
    simp [Client.holds_iff hphase, Phase.Locks]

/-- Nobody holds a key that its holder has given back. -/
theorem Does.nobody_holds (hd : s.Does i r t) (hs : s.Sound) {k : Key}
    (hheld : (s.clients i).Holds k) (hself : ¬ (t.clients i).Holds k) (j : Nat) :
    ¬ (t.clients j).Holds k := by
  intro hj
  by_cases hji : j = i
  · exact hself (hji ▸ hj)
  · exact hji (hs.unique ((hd.holds_of_ne hji k).mp hj) hheld)

/-- A client that changes while no latch is opened leaves every latch shut. -/
theorem Shut.withClient {k : Key} {l : Latch} (h : s.Shut k l)
    (hphase : ∀ c a, (s.clients i).phase ≠ .opening c l a) (c : Client) :
    (s.withClient i c).Shut k l := by
  rcases h with h | ⟨j, d, a, hj, hd⟩
  · exact .inl h
  · refine .inr ⟨j, d, a, ?_, hd⟩
    have hne : j ≠ i := by
      rintro rfl
      exact hphase d a hj
    rwa [clients_withClient_of_ne s c hne]

/-- A latch that is shut stays shut until it is opened. -/
theorem Does.shut (hd : s.Does i r t) {k : Key} {l : Latch} (h : l ∈ s.opened ∨ s.Shut k l) :
    l ∈ t.opened ∨ t.Shut k l := by
  rcases h with h | h
  · left
    cases hd <;> first | exact h | exact List.mem_cons_of_mem _ h
  cases hd with
  | pass under => exact .inr h
  | start c hphase => exact .inr (h.withClient (by simp [hphase]) _)
  | @lock j hphase hfree =>
    right
    have hlock : (s.lock j).Shut k l := by
      refine h.imp_left fun hk => ?_
      have hne : k ≠ j := by
        rintro rfl
        simp [hfree] at hk
      rw [← hk]
      exact Table.get?_insert_of_ne _ _ hne
    exact hlock.withClient (by simp [Crowd.lock, hphase]) _
  | wait hphase hlocked => exact .inr (h.withClient (by simp [hphase]) _)
  | wake hphase => exact .inr (h.withClient (by simp [hphase]) _)
  | miss hphase _ under => exact .inr (h.withClient (by simp [hphase]) _)
  | read hphase _ _ under => exact .inr (h.withClient (by simp [hphase]) _)
  | store hphase _ under => exact .inr (h.withClient (by simp [hphase]) _)
  | remove hphase _ _ under => exact .inr (h.withClient (by simp [hphase]) _)
  | @unlock c a m hphase hlocked =>
    right
    rcases h with h | h
    · by_cases hk : k = c.key
      · subst hk
        obtain rfl : m = l := by simpa [hlocked] using h
        exact .inr ⟨i, c, a, by simp [Client.release], rfl⟩
      · exact .inl ((Table.get?_erase_of_ne _ hk).trans h)
    · have hunlock : (s.unlock c.key).Shut k l := .inr h
      exact hunlock.withClient (by simp [Crowd.unlock, hphase]) _
  | free hphase hfree => exact .inr (h.withClient (by simp [hphase]) _)
  | @opened c a m hphase =>
    by_cases hl : l = m
    · subst hl
      exact .inl (List.mem_cons_self ..)
    · exact .inr (h.withClient (by simp [hphase, Ne.symm hl]) _)
  | expire hphase hshut cache ms _ => exact .inr (h.withClient (by simp [hphase]) _)

/-- A client that writes a key computes it, and one that opens its latch does not. -/
theorem Does.keeps_to (hd : s.Does i r t) (hs : s.Sound) (k : Key) :
    ((t.clients i).phase.Writes k → k ∈ (t.clients i).computing) ∧
      ((t.clients i).phase.Opens k → k ∉ (t.clients i).computing) := by
  have hwrites {p : Phase} (hp : (s.clients i).phase = p) (h : p.Writes k) :
      k ∈ (s.clients i).computing := hs.writes (hp ▸ h)
  cases hd with
  | pass under => exact ⟨hs.writes, hs.opens⟩
  | start c hphase hc =>
    rw [clients_withClient_self]
    cases c with
    | get j => exact ⟨False.elim, False.elim⟩
    | put j e => exact ⟨fun h => (show k = j from h) ▸ hc, False.elim⟩
    | remove j => exact ⟨fun h => (show k = j from h) ▸ hc, False.elim⟩
  | store hphase _ under =>
    rw [clients_withClient_self]
    exact ⟨fun h => hwrites hphase h, False.elim⟩
  | remove hphase _ _ under =>
    rw [clients_withClient_self]
    exact ⟨fun h => hwrites hphase h, False.elim⟩
  | unlock hphase hlocked =>
    simp +contextual [Client.release, Phase.Writes, Phase.Opens]
  -- The others neither write a key nor open a latch next.
  | _ => simp [Client.enter, Client.miss, Client.release, Phase.Writes, Phase.Opens]

/-- A client begins to wait for the latch that is in the table. -/
theorem Does.waits (hd : s.Does i r t) {k : Key} {l : Latch}
    (hwait : (t.clients i).phase = .waiting k l) :
    (s.clients i).phase = .waiting k l ∨ t.latches.get? k = some l := by
  cases hd with
  | pass under => exact .inl hwait
  | start c hphase => cases c <;> simp [Client.enter, Call.start] at hwait
  | wait hphase hlocked =>
    simp only [clients_withClient_self, Client.enter, Phase.waiting.injEq] at hwait
    obtain ⟨rfl, rfl⟩ := hwait
    exact .inr hlocked
  | _ => simp [Client.enter, Client.miss, Client.release] at hwait

/-- No move makes two clients hold one key. -/
theorem Does.sound (hd : s.Does i r t) (hs : s.Sound) : t.Sound where
  locked_iff k := by
    rcases hd.turn hs k with ⟨hlatch, hself⟩ | ⟨hfree, htaken, hself⟩ | ⟨hheld, hfree, hself⟩
    · rw [hlatch, hs.locked_iff]
      refine exists_congr fun j => ?_
      by_cases hj : j = i
      · rw [hj, hself]
      · exact (hd.holds_of_ne hj k).symm
    · exact iff_of_true htaken ⟨i, hself⟩
    · rw [hfree]
      exact iff_of_false (by simp) (not_exists.mpr (hd.nobody_holds hs hheld hself))
  unique := by
    intro j j' k hj hj'
    rcases hd.turn hs k with ⟨-, hself⟩ | ⟨hfree, -, -⟩ | ⟨hheld, -, hself⟩
    · have hback {n : Nat} (hn : (t.clients n).Holds k) : (s.clients n).Holds k := by
        by_cases hni : n = i
        · subst hni
          exact hself.mp hn
        · exact (hd.holds_of_ne hni k).mp hn
      exact hs.unique (hback hj) (hback hj')
    · -- Nobody held the key before.
      have honly {n : Nat} (hn : (t.clients n).Holds k) : n = i := by
        by_contra hni
        have hlocked := (hs.locked_iff k).mpr ⟨n, (hd.holds_of_ne hni k).mp hn⟩
        simp [hfree] at hlocked
      exact (honly hj).trans (honly hj').symm
    · exact absurd hj (hd.nobody_holds hs hheld hself j)
  writes := by
    intro j k
    by_cases hj : j = i
    · exact hj ▸ (hd.keeps_to hs k).1
    · rw [hd.clients_of_ne hj]
      exact hs.writes
  opens := by
    intro j k
    by_cases hj : j = i
    · exact hj ▸ (hd.keeps_to hs k).2
    · rw [hd.clients_of_ne hj]
      exact hs.opens
  shut := by
    intro j k l hwait
    by_cases hj : j = i
    · rcases hd.waits (hj ▸ hwait) with hwait | hlocked
      · exact hd.shut (hs.shut hwait)
      · exact .inr (.inl hlocked)
    · rw [hd.clients_of_ne hj] at hwait
      exact hd.shut (hs.shut hwait)

/-- What returns is a call of the client that moved. -/
theorem Does.client_eq {b : Return} (hd : s.Does i (some b) t) : b.client = i := by
  cases hd <;> rfl

/-- While one client holds a key, another's read of it returns nothing but a timeout. -/
theorem Does.kept_out {j : Nat} {k : Key} (hd : s.Does j r t) (hs : s.Sound)
    (hheld : (s.clients i).Holds k) (hji : j ≠ i) (hj : ¬ (s.clients j).Answered k) :
    ¬ (t.clients j).Answered k ∧ ∀ b, r = some b → b.call = .get k → b.TimedOut := by
  have hlocks : ¬ (s.clients j).phase.Locks k := fun h => hji (hs.unique (.inr h) hheld)
  have hunlocking {c : Call} {a : CacheCall.Answer}
      (hphase : (s.clients j).phase = .unlocking c a) : c ≠ .get k := by
    rintro rfl
    exact hlocks (hphase ▸ rfl)
  cases hd with
  | pass under => exact ⟨hj, by simp⟩
  | start c hphase => cases c <;> simp [Client.Answered, Client.enter, Call.start]
  | unlock hphase hlocked => simp [Client.Answered, Client.release, hunlocking hphase]
  | @miss j' hphase h under =>
    refine ⟨by simp [Client.Answered, Client.miss], ?_⟩
    rintro _ ⟨⟩ hcall
    obtain rfl : j' = k := Call.get.inj hcall
    exact absurd (hphase ▸ rfl) hlocks
  | free hphase hfree =>
    refine ⟨by simp [Client.Answered, Client.release], ?_⟩
    rintro _ ⟨⟩ hcall
    exact absurd hcall (hunlocking hphase)
  | @opened c a l hphase =>
    refine ⟨by simp [Client.Answered, Client.enter], ?_⟩
    rintro _ ⟨⟩ rfl
    exact absurd ⟨l, a, hphase⟩ hj
  | @expire j' l hphase hshut cache ms h =>
    refine ⟨by simp [Client.Answered, Client.enter], ?_⟩
    rintro _ ⟨⟩ -
    exact ⟨j', cache, ms, h, rfl, rfl⟩
  -- The others return nothing and unlock nothing.
  | _ => simp [Client.Answered, Client.enter]

/-- A client that wants to lock a key meets its latch, or the latch it waits for is still shut, only
if somebody occupies the key. -/
theorem Sound.occupied_of_shut (hs : s.Sound) {k : Key} {l : Latch} (h : s.Shut k l) :
    ∃ j, (s.clients j).Occupies k := by
  rcases h with h | ⟨j, c, a, hphase, rfl⟩
  · obtain ⟨j, hj⟩ := (hs.locked_iff k).mp (by simp [h])
    exact ⟨j, .inl hj⟩
  · refine ⟨j, .inr ?_⟩
    rw [hphase]
    exact rfl

end Step

section Runs

variable {s : Crowd σ} {B : CacheOps σ} {i : Nat}

/-- The next step of a client returns its call or brings it nearer to its end, unless somebody
occupies the key that it wants to lock. -/
theorem Sound.go_lowers (hs : s.Sound) (hbusy : (s.clients i).phase ≠ .resting)
    (hfree : ∀ k, (s.clients i).phase.Seeks k → ∀ j, ¬ (s.clients j).Occupies k) (now : Instant)
    (h : Heap) :
    (∃ b, (s.go B now h i).1 = some b) ∨
      ((s.go B now h i).2.clients i).phase ≠ .resting ∧
        ((s.go B now h i).2.clients i).phase.left < (s.clients i).phase.left := by
  rw [go]
  cases hphase : (s.clients i).phase with
  | resting => exact absurd hphase hbusy
  | locking k =>
    have hk : s.latches.get? k = none := by
      rw [Option.eq_none_iff_forall_ne_some]
      intro l hl
      obtain ⟨j, hj⟩ := hs.occupied_of_shut (.inl hl)
      exact hfree k (hphase ▸ rfl) j hj
    right
    simp [hk, Client.enter, Phase.left]
  | waiting k l =>
    have hl : l ∈ s.opened := by
      rcases hs.shut hphase with hl | hl
      · exact hl
      · obtain ⟨j, hj⟩ := hs.occupied_of_shut hl
        exact absurd hj (hfree k (hphase ▸ rfl) j)
    right
    simp [hl, Client.enter, Phase.left]
  | reading k =>
    dsimp only
    rcases B.get now h k s.below with ⟨_ | _ | _, h', under⟩
    · right
      simp [Client.enter, Phase.left]
    · exact .inl ⟨_, rfl⟩
    · right
      simp [Client.enter, Phase.left]
  | storing k e =>
    right
    simp [Client.enter, Phase.left]
  | removing k =>
    right
    simp [Client.enter, Phase.left]
  | unlocking c a =>
    dsimp only
    cases s.latches.get? c.key with
    | none => exact .inl ⟨_, rfl⟩
    | some l =>
      right
      simp [Client.release, Phase.left]
  | opening c l a => exact .inl ⟨_, rfl⟩

/-- No other move than the next step brings a call further, but giving up ends it. -/
theorem step_busy {m : Move} (hbusy : (s.clients i).phase ≠ .resting)
    (hm : ∀ now h, m ≠ .go now h) :
    (∃ b, (s.step B i m).1 = some b) ∨ (s.step B i m).2 = s := by
  cases m with
  | call c =>
    right
    cases hphase : (s.clients i).phase <;> simp_all [step]
  | clear now =>
    right
    cases hphase : (s.clients i).phase <;> simp_all [step]
  | go now h => exact absurd rfl (hm now h)
  | expire h =>
    rw [step, Crowd.expire]
    split
    · split
      · exact .inr rfl
      · exact .inl ⟨_, rfl⟩
    · exact .inr rfl

/-- A call that returns, other than a read that found nothing or that waited too long, has given its
key back, whatever came of it below. -/
theorem Sound.go_frees (hs : s.Sound) {now : Instant} {h : Heap} {b : Return}
    (hb : (s.go B now h i).1 = some b) :
    b.Missed ∨ ¬ ((s.go B now h i).2.clients i).Holds b.call.key := by
  have hd := does_go (B := B) now h i s
  rw [hb] at hd
  generalize (s.go B now h i).2 = t at hd
  cases hd with
  | miss hphase h' under => exact .inl ⟨_, h', rfl, rfl⟩
  | free hphase hfree => exact .inr (by simp [Phase.Locks])
  | @opened c a l hphase =>
    right
    have hc : c.key ∉ (s.clients i).computing := hs.opens (hphase ▸ rfl)
    simp [Phase.Locks, hc]
  | expire hphase => simp [go, hphase] at hb

variable {later : List (Nat × Move)}

/-- Every state of a disciplined run is sound. -/
theorem Sound.run (hs : s.Sound) (hlater : Disciplined B s later) :
    (after B s later).Sound := by
  induction later with
  | nil => exact hs
  | cons e later ih => exact (does_step hlater.1).sound (ih hlater.2)

variable (B) in
/-- Something is so before the first of some moves and after each of them. -/
def Throughout (P : Crowd σ → Prop) (s : Crowd σ) : List (Nat × Move) → Prop
  | [] => P s
  | e :: past => P (after B s (e :: past)) ∧ Throughout P s past

theorem Throughout.last {P : Crowd σ → Prop} (h : Throughout B P s later) :
    P (after B s later) := by
  cases later with
  | nil => exact h
  | cons e later => exact h.1

/-- While one client computes a key, the others' reads of it return nothing but timeouts. -/
theorem Sound.kept_out (hs : s.Sound) {j : Nat} {k : Key} (hlater : Disciplined B s later)
    (hcomputes : Throughout B (fun t => t.Computes i k) s later) (hji : j ≠ i)
    (hj : ¬ (s.clients j).Answered k) :
    ¬ ((after B s later).clients j).Answered k ∧
      ∀ b ∈ returns B s later, b.client = j → b.call = .get k → b.TimedOut := by
  induction later with
  | nil => exact ⟨hj, by simp [returns]⟩
  | cons e later ih =>
    obtain ⟨n, m⟩ := e
    obtain ⟨hpast, hreturns⟩ := ih hlater.2 hcomputes.2
    have hd := does_step (B := B) hlater.1
    have hheld : ((after B s later).clients i).Holds k := .inl hcomputes.2.last
    have hnew : ¬ ((after B s ((n, m) :: later)).clients j).Answered k ∧
        ∀ b, ((after B s later).step B n m).1 = some b → b.client = j → b.call = .get k →
          b.TimedOut := by
      by_cases hn : n = j
      · subst hn
        obtain ⟨hafter, hb⟩ := hd.kept_out (hs.run hlater.2) hheld hji hpast
        exact ⟨hafter, fun b h _ => hb b h⟩
      · refine ⟨?_, fun b h hclient => ?_⟩
        · rwa [after, hd.clients_of_ne (Ne.symm hn)]
        · exact absurd ((h ▸ hd).client_eq.symm.trans hclient) hn
    refine ⟨hnew.1, fun b hb => ?_⟩
    rcases List.mem_append.mp hb with hb | hb
    · exact hnew.2 b (Option.mem_toList.mp hb)
    · exact hreturns b hb

/-- How many steps of its calls a client made. -/
def goes (i : Nat) : List (Nat × Move) → Nat
  | [] => 0
  | (j, .go _ _) :: past => if j = i then goes i past + 1 else goes i past
  | _ :: past => goes i past

/-- A call goes on with every step of its client, as long as nobody occupies the key that it wants
to lock. -/
theorem Sound.goes_on (hs : s.Sound) (hlater : Disciplined B s later)
    (hbusy : (s.clients i).phase ≠ .resting)
    (hfree : Throughout B
      (fun t => ∀ k, (t.clients i).phase.Seeks k → ∀ j, ¬ (t.clients j).Occupies k) s later) :
    (∃ b ∈ returns B s later, b.client = i) ∨
      ((after B s later).clients i).phase ≠ .resting ∧
        ((after B s later).clients i).phase.left + goes i later ≤ (s.clients i).phase.left := by
  induction later with
  | nil => exact .inr ⟨hbusy, Nat.le_refl _⟩
  | cons e later ih =>
    obtain ⟨n, m⟩ := e
    rcases ih hlater.2 hfree.2 with ⟨b, hb, hclient⟩ | ⟨hbusy, hleft⟩
    · exact .inl ⟨b, List.mem_append_right _ hb, hclient⟩
    have hd := does_step (B := B) hlater.1
    have hreturn {b : Return} (h : ((after B s later).step B n m).1 = some b) (hn : n = i) :
        ∃ b ∈ returns B s ((n, m) :: later), b.client = i :=
      ⟨b, List.mem_append_left _ (Option.mem_toList.mpr h), (h ▸ hd).client_eq.trans hn⟩
    by_cases hn : n = i
    · subst hn
      by_cases hm : ∃ now h, m = .go now h
      · obtain ⟨now, h, rfl⟩ := hm
        rcases (hs.run hlater.2).go_lowers hbusy hfree.2.last now h with ⟨b, hb⟩ | ⟨hbusy, hlower⟩
        · exact .inl (hreturn hb rfl)
        · refine .inr ⟨hbusy, ?_⟩
          simp only [after, step_go, goes, if_true]
          omega
      · simp only [not_exists] at hm
        rcases step_busy (B := B) hbusy hm with ⟨b, hb⟩ | hstay
        · exact .inl (hreturn hb rfl)
        · right
          have hgoes : goes n ((n, m) :: later) = goes n later := by
            cases m <;> simp_all [goes]
          rw [after, hstay, hgoes]
          exact ⟨hbusy, hleft⟩
    · right
      have hgoes : goes i ((n, m) :: later) = goes i later := by
        cases m <;> simp [goes, hn]
      rw [after, hd.clients_of_ne (Ne.symm hn), hgoes]
      exact ⟨hbusy, hleft⟩

end Runs

/-- After any disciplined run at most one client computes a key, that is, has read it, found nothing
and not unlocked it. As long as it computes the key, the others' reads of it time out, but for one
that has unlocked the key already. A call that no client keeps from locking its key returns within
the steps that are left of it, whatever the clients do with other keys. And a call that returns, other
than a read that found nothing, has given its key back, also if what is below failed. -/
theorem one_computes {σ : Type} {B : CacheOps σ} {timeout : Option Nat} {under : σ}
    {past : List (Nat × Move)} (hpast : Disciplined B (start timeout under) past) :
    let s := after B (start timeout under) past
    (∀ i j k, s.Computes i k → s.Computes j k → i = j) ∧
    (∀ i j k later, Disciplined B s later → Throughout B (fun t => t.Computes i k) s later →
      j ≠ i → ¬ (s.clients j).Answered k →
      ∀ b ∈ returns B s later, b.client = j → b.call = .get k → b.TimedOut) ∧
    (∀ i later, Disciplined B s later → (s.clients i).phase ≠ .resting →
      Throughout B
        (fun t => ∀ k, (t.clients i).phase.Seeks k → ∀ j, ¬ (t.clients j).Occupies k) s later →
      (s.clients i).phase.left ≤ goes i later → ∃ b ∈ returns B s later, b.client = i) ∧
    ∀ i now h b, (s.go B now h i).1 = some b → b.Missed ∨
      let t := (s.go B now h i).2
      ¬ (t.clients i).Holds b.call.key ∧
        (t.latches.get? b.call.key = none ∨ ∃ j ≠ i, (t.clients j).Holds b.call.key) := by
  intro s
  have hs : s.Sound := (sound_start timeout under).run hpast
  refine ⟨fun i j k hi hj => hs.unique (.inl hi) (.inl hj), ?_, ?_, ?_⟩
  · intro i j k later hlater hcomputes hji hj
    exact (hs.kept_out hlater hcomputes hji hj).2
  · intro i later hlater hbusy hfree hgoes
    rcases hs.goes_on hlater hbusy hfree with h | ⟨hbusy', hleft⟩
    · exact h
    · have hzero : ((after B s later).clients i).phase.left = 0 := by omega
      exact absurd (Phase.left_eq_zero.mp hzero) hbusy'
  · intro i now h b hb
    refine (hs.go_frees hb).imp_right fun hfree => ⟨hfree, ?_⟩
    have ht : (s.go B now h i).2.Sound := (does_go now h i s).sound hs
    rw [or_iff_not_imp_left, ← ne_eq, ← Option.isSome_iff_ne_none, ht.locked_iff]
    rintro ⟨j, hj⟩
    refine ⟨j, ?_, hj⟩
    rintro rfl
    exact hfree hj

/-- One client found nothing, and another waits for the key. -/
def oneWaits (k : Key) : List (Nat × Move) :=
  [(1, .go 0 .empty), (1, .call (.get k)), (0, .go 0 .empty), (0, .go 0 .empty), (0, .call (.get k))]

/-- Only the client that found nothing computes the key, and when the other gives up it timed out. -/
theorem one_computes_oneWaits :
    let s₀ := start (some 50) (Store.perpetual "b")
    let k : Key := .ofComponents .mixing [.int 1]
    let s := after Store.ops s₀ (oneWaits k)
    Disciplined Store.ops s₀ (oneWaits k) ∧ s.Computes 0 k ∧ (∀ j, s.Computes j k → j = 0) ∧
      ∃ b, returns Store.ops s [(1, .expire .empty)] = [b] ∧ b.TimedOut := by
  intro s₀ k s
  have hpast : Disciplined Store.ops s₀ (oneWaits k) :=
    ⟨trivial, trivial, trivial, trivial, trivial, trivial⟩
  have hcomputes : s.Computes 0 k := List.mem_cons_self ..
  have hstill : Throughout Store.ops (fun t => t.Computes 0 k) s [(1, .expire .empty)] :=
    ⟨List.mem_cons_self .., hcomputes⟩
  have hwaits : ¬ (s.clients 1).Answered k := by
    rintro ⟨l, a, h⟩
    cases h
  obtain ⟨hone, hout, -, -⟩ := one_computes hpast
  exact ⟨hpast, hcomputes, fun j hj => hone j 0 k hj hcomputes, _, rfl,
    hout 0 1 k [(1, .expire .empty)] ⟨trivial, trivial⟩ hstill (by decide) hwaits _
      (List.mem_singleton_self _) rfl rfl⟩

end Crowd
end ResultCache
