import ResultCache.Cache.Stack

/-!
# Runs of calls

A cache is called in any way, each call at any time and with objects in any state. What a run of
calls leaves of the cache is `after`, and what the calls returned is `answers`; both list the latest
call first. A cache does in a run what its stack of layers does (`Cache.after_ops`,
`Cache.answers_ops`).
-/
namespace ResultCache

/-- A call of a cache, with when it is made and what objects are like then. -/
inductive CacheCall where
  | put (now : Instant) (h : Heap) (k : Key) (e : Entry)
  | get (now : Instant) (h : Heap) (k : Key)
  | remove (now : Instant) (h : Heap) (k : Key)
  | clear (now : Instant)
  | size (now : Instant)

namespace CacheCall

/-- What a call returns; next to an entry is what objects are like then. -/
inductive Answer where
  | stored (r : Result Unit)
  | found (r : Result (Option Entry)) (h : Heap)
  | cleared
  | counted (n : Nat)

variable {σ : Type} (B : CacheOps σ)

/-- What a call returns and what it leaves of the cache. -/
def run : CacheCall → σ → Answer × σ
  | put now h k e, s => (.stored (B.put now h k e s).1, (B.put now h k e s).2)
  | get now h k, s => (.found (B.get now h k s).1 (B.get now h k s).2.1, (B.get now h k s).2.2)
  | remove now h k, s =>
    (.found (B.remove now h k s).1 (B.remove now h k s).2.1, (B.remove now h k s).2.2)
  | clear now, s => (.cleared, B.clear now s)
  | size now, s => (.counted (B.size now s).1, (B.size now s).2)

/-- The cache after some calls. -/
def after (s : σ) : List CacheCall → σ
  | [] => s
  | c :: past => (c.run B (after s past)).2

/-- What the calls returned. -/
def answers (s : σ) : List CacheCall → List Answer
  | [] => []
  | c :: past => (c.run B (after B s past)).1 :: answers s past

end CacheCall

namespace Cache

theorem run_ops (c : CacheCall) (ls : List Layer) (s : Stack ls) :
    c.run ops ⟨ls, s⟩ = ((c.run (stackOps ls) s).1, ⟨ls, (c.run (stackOps ls) s).2⟩) := by
  cases c <;> rfl

theorem after_ops (ls : List Layer) (s : Stack ls) (past : List CacheCall) :
    CacheCall.after ops ⟨ls, s⟩ past = ⟨ls, CacheCall.after (stackOps ls) s past⟩ := by
  induction past with
  | nil => rfl
  | cons c past ih => simp [CacheCall.after, ih, run_ops]

theorem answers_ops (ls : List Layer) (s : Stack ls) (past : List CacheCall) :
    CacheCall.answers ops ⟨ls, s⟩ past = CacheCall.answers (stackOps ls) s past := by
  induction past with
  | nil => rfl
  | cons c past ih => simp [CacheCall.answers, ih, after_ops, run_ops]

end Cache
end ResultCache
