-- SUMMARY: The two-tier cache: lookups, stores, the background writer, invalidation, clearing and statistics.
import BanglaSource.Cache.Disk
import BanglaSource.Cache.Event
import BanglaSource.Cache.Memory
import BanglaSource.ContentKey

/-!
# Cache

A lookup tries the memory tier and then the disk tier; an entry found on disk is
copied into memory. A store fills the memory tier and leaves the write to disk to a
background writer, which does the writes in their order, at any time. Lookups do not
wait for it; upkeep does. Trouble with the disk is never an error: a lookup misses
and a store is lost. A disabled cache neither looks up nor stores, but keeps what it
holds.
-/
namespace BanglaSource

/-- How a cache is set up. Ages are in milliseconds. -/
structure CacheConfig where
  memoryCapacity : Nat := 100
  maxAge : Nat := 7 * 24 * 60 * 60 * 1000
  enabled : Bool := true
deriving DecidableEq, Repr

/-- The name of the directory that is used when none is given. -/
def defaultDirectory : Text := ".banglascript-cache"

/-- A cache with its directory. -/
structure Cache where
  memory : Memory
  directory : Directory
  /-- The writes that the background writer has not done yet, the oldest first. -/
  pending : List Disk.Job
  maxAge : Nat
  enabled : Bool

/-- How full a cache is. -/
structure CacheStats where
  memoryEntries : Nat
  memoryCapacity : Nat
  diskEntries : Nat
  diskBytes : Nat
  enabled : Bool
deriving DecidableEq, Repr

/-- The size of the disk tier in units of 2^20 bytes, as a double. -/
def CacheStats.diskMegabytes (s : CacheStats) : Float :=
  s.diskBytes.toUInt64.toFloat / 1048576.0

namespace Cache

/-- A new cache over a directory. -/
def new (config : CacheConfig) (directory : Directory) : Cache where
  memory := .empty config.memoryCapacity
  directory := directory
  pending := []
  maxAge := config.maxAge
  enabled := config.enabled

-- ---------------------------------------------------------------------------
-- Lookups and stores
-- ---------------------------------------------------------------------------

/-- Looks up the entry for a source and options. -/
def get (c : Cache) (source : Text) (options : Json) : Outcome Cache (Option Entry) :=
  if !c.enabled then ⟨c, none, []⟩
  else
    let key := ContentKey.of source options
    match c.memory.get? key with
    | some e => ⟨c, some e, [.memoryHit]⟩
    | none =>
      match Disk.read c.directory key with
      | .missing => ⟨c, none, [.miss]⟩
      | .unusable => ⟨c, none, [.unusable]⟩
      | .entry e => ⟨{ c with memory := (c.memory.insert key e).1 }, some e, [.diskHit]⟩

/-- Stores output for a source and options at time `now`. The entry is in memory when
    this is done, and its write to disk is pending. -/
def set (c : Cache) (now : Nat) (source : Text) (options : Json) (output : Text)
    (positionMap : Option Json) : Outcome Cache Unit :=
  if !c.enabled then ⟨c, (), []⟩
  else
    let key := ContentKey.of source options
    let entry := Entry.new now options output positionMap
    let (memory, evicted) := c.memory.insert key entry
    ⟨{ c with memory := memory, pending := c.pending ++ [⟨key, entry⟩] }, (),
      evicted.toList.map .evicted⟩

-- ---------------------------------------------------------------------------
-- The background writer
-- ---------------------------------------------------------------------------

/-- The background writer does the oldest pending write. -/
def writeNext (c : Cache) : Cache :=
  match c.pending with
  | [] => c
  | job :: pending =>
    { c with directory := (Disk.write c.directory job.key job.entry).1, pending := pending }

/-- Waits until no write is pending. -/
def flush (c : Cache) : Cache :=
  { c with directory := Disk.writeAll c.directory c.pending, pending := [] }

-- ---------------------------------------------------------------------------
-- Upkeep
-- ---------------------------------------------------------------------------

/-- Ages beyond this one are cut down to it. -/
def longestAge : Nat := 0xFFFFFFFFFFFFFFFF

/-- What invalidation reports about an entry file. -/
def verdictEvent? : Disk.Verdict → Option Event
  | .fresh | .old => none
  | .notAnEntry => some .entryDropped
  | .unreadable => some .entryUnreadable

/-- Waits for pending writes, then removes the entry files that are older than
    `maxAge`, or than the configured age, and those that cannot be used. The memory
    tier stays as it is. The result is the number of files removed. -/
def invalidate (c : Cache) (now : Nat) (maxAge : Option Nat) : Outcome Cache Nat :=
  let c := c.flush
  match Disk.entryNames? c.directory with
  | none => ⟨c, 0, [.invalidateSkipped]⟩
  | some names =>
    let age := min (maxAge.getD c.maxAge) longestAge
    let (directory, removed, verdicts) := Disk.sweep age now c.directory names
    ⟨{ c with directory := directory }, removed,
      verdicts.filterMap verdictEvent? ++ [.invalidated removed]⟩

/-- Waits for pending writes, then empties both tiers and removes the directory. -/
def clear (c : Cache) : Outcome Cache Unit :=
  let c := { c.flush with memory := c.memory.clear }
  match c.directory.removeAll? with
  | some directory => ⟨{ c with directory := directory }, (), []⟩
  | none => ⟨c, (), [.directoryNotRemoved]⟩

def setEnabled (c : Cache) (enabled : Bool) : Cache :=
  { c with enabled := enabled }

/-- How full the cache is when no write is pending. A directory that cannot be listed
    counts as empty. -/
def stats (c : Cache) : Outcome Cache CacheStats :=
  let c := c.flush
  let of (entries bytes : Nat) : CacheStats :=
    { memoryEntries := c.memory.size
      memoryCapacity := c.memory.capacity
      diskEntries := entries
      diskBytes := bytes
      enabled := c.enabled }
  match Disk.usage? c.directory with
  | some (entries, bytes) => ⟨c, of entries bytes, []⟩
  | none => ⟨c, of 0 0, [.usageUnavailable]⟩

end Cache
end BanglaSource
