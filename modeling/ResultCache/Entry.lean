import ResultCache.Fault
import ResultCache.Key
import ResultCache.Table

/-!
# Cache entries

What a cache can hold for a key: rows, the remembered absence of rows, a mark that the result is
still loading, or rows in encoded form, which only a copying layer reads.
-/
namespace ResultCache

inductive Entry where
  | absence
  | loading
  | rows (vs : List Value)
  | encoded (bs : List UInt8)
  deriving DecidableEq, Inhabited

namespace Entry

def isLoading : Entry → Bool
  | .loading => true
  | _ => false

/-- The rows a completed entry stands for; an absence stands for no rows. -/
def results? : Entry → Option (List Value)
  | .absence => some []
  | .rows vs => some vs
  | .loading => none
  | .encoded _ => none

end Entry

/-- The contents of a store. -/
abbrev Entries := Table Key Entry

end ResultCache
