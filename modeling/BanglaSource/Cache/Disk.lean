-- SUMMARY: The disk tier of the cache: one file per entry, written whole or not at all, and its invalidation.
import BanglaSource.Cache.Directory
import BanglaSource.Format.Entry

/-!
# Disk tier

Each entry has a file named for its key. A write goes to a temporary file, which
is then moved into place, so that an entry file is never half written. A file
that cannot be read or does not hold an entry counts as stale.
-/
namespace BanglaSource.Disk

-- ---------------------------------------------------------------------------
-- Names
-- ---------------------------------------------------------------------------

def entryName (key : Text) : Text := key ++ ".json"

def temporaryName (key : Text) : Text := key ++ ".tmp"

/-- What follows the last point of a file name. A name without a point, or with
    only one at its start, has no extension. -/
def extension? (name : Text) : Option Text :=
  match name.reverse.dropWhile (· != '.') with
  | _ :: _ :: _ => some (name.reverse.takeWhile (· != '.')).reverse
  | _ => none

/-- Whether a file name is that of an entry. -/
def isEntryName (name : Text) : Bool :=
  extension? name == some "json"

-- ---------------------------------------------------------------------------
-- Reading and writing
-- ---------------------------------------------------------------------------

/-- What looking for an entry on disk gives. -/
inductive Found where
  | entry (e : Entry)
  | missing
  | unusable

def read (d : Directory) (key : Text) : Found :=
  match d.read (entryName key) with
  | .missing => .missing
  | .failed => .unusable
  | .text s =>
    match Entry.parse? s with
    | some e => .entry e
    | none => .unusable

/-- Writes an entry. The second result says whether that succeeded. -/
def write (d : Directory) (key : Text) (e : Entry) : Directory × Bool :=
  match d.create? with
  | none => (d, false)
  | some d =>
    match d.write? (temporaryName key) (.text e.print) with
    | none => (d, false)
    | some d =>
      match d.rename? (temporaryName key) (entryName key) with
      | some d => (d, true)
      | none => ((d.remove? (temporaryName key)).getD d, false)

/-- A write that is to be done. -/
structure Job where
  key : Text
  entry : Entry

/-- Does writes one after another. One that fails is given up. -/
def writeAll (d : Directory) (jobs : List Job) : Directory :=
  jobs.foldl (fun d job => (write d job.key job.entry).1) d

-- ---------------------------------------------------------------------------
-- All entries
-- ---------------------------------------------------------------------------

/-- The names of all entry files. A missing directory has none. -/
def entryNames? : Directory → Option (List Text)
  | .missing => some []
  | d => d.names?.map (·.filter isEntryName)

/-- The number of entry files and their size in bytes. -/
def usage? (d : Directory) : Option (Nat × Nat) :=
  (entryNames? d).map fun names =>
    let sizes := names.filterMap fun name => (d.find? name).map Node.size
    (names.length, sizes.foldr (· + ·) 0)

/-- What invalidation finds out about an entry file. -/
inductive Verdict where
  | fresh
  | old
  | notAnEntry
  | unreadable
deriving DecidableEq, Repr

def Verdict.isStale : Verdict → Bool
  | fresh => false
  | old | notAnEntry | unreadable => true

def judge (d : Directory) (maxAge now : Nat) (name : Text) : Verdict :=
  match d.read name with
  | .text s =>
    match Entry.parse? s with
    | some e => if maxAge < e.age now then .old else .fresh
    | none => .notAnEntry
  | .missing | .failed => .unreadable

/-- Goes through entry files and removes the stale ones. The results are the
    directory, the number of files removed and what was found out about each. -/
def sweep (maxAge now : Nat) (d : Directory) : List Text → Directory × Nat × List Verdict
  | [] => (d, 0, [])
  | name :: names =>
    let verdict := judge d maxAge now name
    let removed := if verdict.isStale then d.remove? name else none
    let (last, count, verdicts) := sweep maxAge now (removed.getD d) names
    (last, if removed.isSome then count + 1 else count, verdict :: verdicts)

end BanglaSource.Disk
