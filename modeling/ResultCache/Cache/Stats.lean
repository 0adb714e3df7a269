/-!
# Read counters

How often a cache was read and how often the read found an entry. The ratio of the two is a binary64
number; it is zero as long as nothing was read.
-/
namespace ResultCache

structure Stats where
  requests : Nat
  hits : Nat
  deriving DecidableEq, Repr, Inhabited

namespace Stats

def zero : Stats := ⟨0, 0⟩

/-- Counts one read. -/
def record (s : Stats) (hit : Bool) : Stats := ⟨s.requests + 1, s.hits + if hit then 1 else 0⟩

def misses (s : Stats) : Nat := s.requests - s.hits

/-- The fraction of the reads that found an entry. -/
def hitRatio (s : Stats) : Float :=
  if s.requests = 0 then 0.0 else Float.ofNat s.hits / Float.ofNat s.requests

/-- Hits never outnumber reads, so every read is a hit or a miss. -/
theorem hits_le_record {s : Stats} (h : s.hits ≤ s.requests) (hit : Bool) :
    (s.record hit).hits ≤ (s.record hit).requests := by
  cases hit <;> simp [record] <;> omega

end Stats
end ResultCache
