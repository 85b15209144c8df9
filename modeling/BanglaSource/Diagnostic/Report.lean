-- SUMMARY: A bounded, ordered collection of diagnostics that counts every one it is given.
import BanglaSource.Diagnostic

/-!
# Reports

A report keeps the first diagnostics that are pushed, up to a bound, and counts
all of them by severity.
-/
namespace BanglaSource

/-- The diagnostics of a run. -/
structure Report where
  stored : List Diagnostic
  errorCount : Nat
  warningCount : Nat
deriving DecidableEq, Repr

namespace Report

/-- How many diagnostics are kept. Later ones are only counted. -/
def maxStored : Nat := 20

def empty : Report := ⟨[], 0, 0⟩

def push (r : Report) (d : Diagnostic) : Report where
  stored := if r.stored.length < maxStored then r.stored ++ [d] else r.stored
  errorCount := if d.severity = .error then r.errorCount + 1 else r.errorCount
  warningCount := if d.severity = .warning then r.warningCount + 1 else r.warningCount

def ofList (ds : List Diagnostic) : Report :=
  ds.foldl push empty

def hasErrors (r : Report) : Bool :=
  0 < r.errorCount

def isEmpty (r : Report) : Bool :=
  r.errorCount == 0 && r.warningCount == 0

/-- The stored diagnostics of one severity. -/
def ofSeverity (r : Report) (s : Severity) : List Diagnostic :=
  r.stored.filter (·.severity = s)

end Report
end BanglaSource
