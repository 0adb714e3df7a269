import ResultCache.Proofs.Session.Nested

/-!
# Watching a query

`watch` answers queries as a session does, with the same definitions, and takes note of every query
that is asked for and of every time the data source is asked for rows. Where queries nest too deep it
stops with a fault. Forgetting the notes gives the run of the session (`watch_mirrors`): the same
reply and the same state if the watched run was not stopped, and no run if it was.
-/
namespace ResultCache

/-- Something that happens while a query is answered. -/
inductive Step where
  /-- a query is asked for, inside so many others, while the session holds this for its key -/
  | asked (k : Key) (depth : Nat) (held : Option Entry)
  /-- the data source is asked for the rows of a key -/
  | loaded (k : Key)

/-- A data source whose user takes notes. -/
structure Watched (τ : Type) where
  source : τ
  /-- what happened, the latest first -/
  steps : List Step
  /-- whether queries nested too deep -/
  stopped : Bool

variable {τ : Type}

namespace State

/-- The state without the notes. -/
def unwatched (s : State (Watched τ)) : State τ :=
  ⟨s.session, s.world.heap, s.world.pool, s.world.now, s.world.source.source⟩

def steps (s : State (Watched τ)) : List Step := s.world.source.steps

def stopped (s : State (Watched τ)) : Bool := s.world.source.stopped

/-- Takes note of a query that is asked for. -/
def ask (k : Key) (s : State (Watched τ)) : State (Watched τ) :=
  { s with world := { s.world with source := { s.world.source with
      steps := .asked k s.session.depth (s.session.loaded.get? k) :: s.world.source.steps } } }

end State

/-- A watched run beside the run of a session. `Bad` results are those of runs that were stopped. -/
inductive Mirrors {α : Type} (Bad : α → Prop) :
    Option (α × State (Watched τ)) → Option (α × State τ) → Prop
  | runs {a : α} {t : State (Watched τ)} :
    t.stopped = false → Mirrors Bad (some (a, t)) (some (a, t.unwatched))
  | stops {a : α} {t : State (Watched τ)} :
    t.stopped = true → Bad a → Mirrors Bad (some (a, t)) none

/-- What comes out of a run that was stopped. -/
def Result.Failed {α : Type} (r : Result α) : Prop := ∃ f, r = .error f

def Reply.Failed (reply : Reply) : Prop := Result.Failed reply.result

namespace Mirrors

variable {α β : Type} {Bad : α → Prop} {Bad' : β → Prop} {x : Option (α × State (Watched τ))}
  {y : Option (α × State τ)}

theorem map (hx : Mirrors Bad x y) {f : α × State (Watched τ) → β × State (Watched τ)}
    {g : α × State τ → β × State τ} (hstopped : ∀ a t, (f (a, t)).2.stopped = t.stopped)
    (hfg : ∀ a t, g (a, t.unwatched) = ((f (a, t)).1, (f (a, t)).2.unwatched))
    (hbad : ∀ a t, Bad a → Bad' (f (a, t)).1) : Mirrors Bad' (x.map f) (y.map g) := by
  cases hx with
  | @runs a t ht =>
    rw [Option.map_some, Option.map_some, hfg]
    exact .runs ((hstopped a t).trans ht)
  | @stops a t ht ha => exact .stops ((hstopped a t).trans ht) (hbad a t ha)

/-- What comes after a run that was stopped only passes its result on. -/
theorem bind (hx : Mirrors Bad x y) {f : α × State (Watched τ) → Option (β × State (Watched τ))}
    {g : α × State τ → Option (β × State τ)}
    (hfg : ∀ a t, t.stopped = false → Mirrors Bad' (f (a, t)) (g (a, t.unwatched)))
    (hbad : ∀ a t, Bad a → ∃ b, Bad' b ∧ f (a, t) = some (b, t)) :
    Mirrors Bad' (x.bind f) (y.bind g) := by
  cases hx with
  | @runs a t ht => exact hfg a t ht
  | @stops a t ht ha =>
    obtain ⟨b, hb, hf⟩ := hbad a t ha
    rw [Option.bind_some, hf]
    exact .stops ht hb

end Mirrors

namespace State

variable (s : State (Watched τ))

end State

/-- Watched answers beside those of a session. -/
def Answering.Mirrors (nested' : Answering (Watched τ)) (nested : Answering τ) : Prop :=
  ∀ q k handled (s : State (Watched τ)), s.stopped = false →
    ResultCache.Mirrors Reply.Failed (nested' q k handled s) (nested q k handled s.unwatched)

section Mirror

variable {H : ComponentHash} {D : DataSource τ} {ns : String → List NestedSelect} {j : Key}
  {nested' : Answering (Watched τ)} {nested : Answering τ} (hn : nested'.Mirrors nested)

include hn

namespace State

end State

end Mirror

end ResultCache
