-- SUMMARY: What cache and pipeline report about their work, and the log line of each event.
import BanglaSource.Text

/-!
# Events
-/
namespace BanglaSource

/-- Something worth a line in the log. -/
inductive Event where
  | memoryHit
  | diskHit
  | miss
  /-- An entry file is there but cannot be used. -/
  | unusable
  /-- A key had to leave the memory tier. -/
  | evicted (key : Text)
  /-- A stage was answered from the cache. -/
  | served (stage : Text)
  | backendFailed
  /-- Invalidation found an entry file that cannot be read. -/
  | entryUnreadable
  /-- Invalidation found an entry file that holds no entry. -/
  | entryDropped
  | invalidated (removed : Nat)
  | invalidateSkipped
  | directoryNotRemoved
  | usageUnavailable
deriving DecidableEq, Repr

namespace Event

/-- The line in the log. -/
def message : Event → Text
  | memoryHit => "memory hit"
  | diskHit => "disk hit"
  | miss => "miss"
  | unusable => "disk entry unusable, treating as miss"
  | evicted key => "memory tier evicted oldest entry evicted=".toList ++ key
  | served stage => "served from cache stage=".toList ++ stage
  | backendFailed => "backend failed"
  | entryUnreadable => "cache entry read failed"
  | entryDropped => "dropping unreadable cache entry"
  | invalidated removed => "invalidated old entries removed=".toList ++ Text.ofNat removed
  | invalidateSkipped => "invalidate skipped"
  | directoryNotRemoved => "cache directory not removed"
  | usageUnavailable => "disk usage unavailable"

end Event

/-- The outcome of a step: the state after it, its result, and what it reports. -/
structure Outcome (σ α : Type) where
  state : σ
  value : α
  events : List Event

end BanglaSource
