import ResultCache.Value.Bytes

/-!
# Faults

Whatever can go wrong, by its cause. The outer type is the kind of fault that callers tell apart;
data sources and stores of other makes report faults of the same kinds in their own words
(`reported`). `Fault.message` is the one place that words them.
-/
namespace ResultCache

/-- What is wrong with the setup of a cache, or with what it holds. -/
inductive ConfigurationFault where
  | badSetting (value name cache : String)
  /-- a cache that keeps the most recently used keys cannot keep none -/
  | noRoom (cache : String)
  /-- a result that is still loading cannot be copied -/
  | unfinished (cache : String)
  | undecodable (cache : String) (why : DecodeFault)
  | unknownStore (name : String)
  | notAStore (name : String)
  | unknownLayer (name : String)
  | notALayer (name : String)
  | reported (text : String)
  deriving DecidableEq, Repr

/-- A call on a session that is already closed. -/
inductive ClosedFault where
  | session
  | commit
  | reported (text : String)
  deriving DecidableEq, Repr

inductive ExecutionFault where
  /-- a query asks for a result that a query further out is still loading -/
  | reentered (statement key : String)
  | reported (text : String)
  deriving DecidableEq, Repr

inductive ExtractionFault where
  /-- one row was expected at most -/
  | manyRows
  | reported (text : String)
  deriving DecidableEq, Repr

inductive UnsupportedFault where
  /-- a result of a procedure that also sets parameters cannot be shared -/
  | outParameters (statement : String)
  | reported (text : String)
  deriving DecidableEq, Repr

inductive Fault where
  | configuration (f : ConfigurationFault)
  | closed (f : ClosedFault)
  | execution (f : ExecutionFault)
  /-- the key stayed locked for the whole timeout, in milliseconds -/
  | lockTimeout (key cache : String) (timeout : Nat)
  /-- the key is locked and the wait for it has no end, so the call never returns -/
  | endlessWait (key cache : String)
  | extraction (f : ExtractionFault)
  | unsupported (f : UnsupportedFault)
  deriving DecidableEq, Repr

def ConfigurationFault.message : ConfigurationFault → String
  | .badSetting value name cache =>
    s!"Unsupported value '{value}' for property '{name}' of cache '{cache}'"
  | .noRoom cache => s!"LRU size for cache '{cache}' must be positive"
  | .unfinished cache => s!"Cache '{cache}' cannot store an in-flight placeholder"
  | .undecodable cache why => s!"Cache '{cache}' holds an undecodable entry: {why.message}"
  | .unknownStore name => s!"Unknown cache implementation ({name})"
  | .notAStore name =>
    s!"Invalid base cache implementation ({name}). Base cache implementations must be " ++
      "constructible from a cache id"
  | .unknownLayer name => s!"Unknown cache decorator ({name})"
  | .notALayer name =>
    s!"Invalid cache decorator ({name}). Cache decorators must be constructible from a " ++
      "single cache"
  | .reported text => text

def ClosedFault.message : ClosedFault → String
  | .session => "Executor was closed."
  | .commit => "Cannot commit, transaction is already closed"
  | .reported text => text

def ExecutionFault.message : ExecutionFault → String
  | .reentered statement key =>
    s!"Statement '{statement}' re-entered while key {key} is still loading"
  | .reported text => text

def ExtractionFault.message : ExtractionFault → String
  | .manyRows => "Statement returned more than one row, where no more than one was expected."
  | .reported text => text

def UnsupportedFault.message : UnsupportedFault → String
  | .outParameters statement =>
    "Caching stored procedures with OUT params is not supported. Please configure " ++
      s!"use_cache=false in {statement} statement."
  | .reported text => text

namespace Fault

/-- The wording of a fault. -/
def message : Fault → String
  | .configuration f => "Cache configuration error: " ++ f.message
  | .closed f => "Executor closed: " ++ f.message
  | .execution f => "Execution error: " ++ f.message
  | .lockTimeout key cache timeout =>
    s!"Couldn't get a lock in {timeout}ms for the key {key} at the cache {cache}"
  | .endlessWait key cache => s!"Waiting without end for the key {key} at the cache {cache}"
  | .extraction f => "Result extraction error: " ++ f.message
  | .unsupported f => "Unsupported operation: " ++ f.message

/-- Whether the fault came from calling into a closed session. -/
def isClosed : Fault → Bool
  | .closed _ => true
  | _ => false

end Fault

/-- A result, or the fault that kept it from coming about. -/
abbrev Result (α : Type) := Except Fault α

end ResultCache
