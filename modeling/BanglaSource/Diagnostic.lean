-- SUMMARY: Diagnostics: severity, numeric code, message, place and source line, with their one-line display.
import BanglaSource.Span

/-!
# Diagnostics

A diagnostic carries enough context to be shown without its source. The code
decides which stage raised it: codes from 200 on come from the backend, smaller
ones from checks on the source.
-/
namespace BanglaSource

inductive Severity where
  | error
  | warning
deriving DecidableEq, Repr

namespace Severity

def all : List Severity := [error, warning]

def name : Severity → Text
  | error => "error"
  | warning => "warning"

end Severity

/-- The stage that raises a diagnostic. -/
inductive Stage where
  /-- Checks on the source text. -/
  | source
  /-- The parser and code generator behind the pipeline. -/
  | backend
deriving DecidableEq, Repr

namespace Stage

def all : List Stage := [source, backend]

def name : Stage → Text
  | source => "syntax"
  | backend => "backend"

end Stage

/-- The number of a diagnostic. -/
structure Code where
  number : Nat
deriving DecidableEq, Repr

namespace Code

/-- A closing bracket without an open one of its kind. -/
def unmatchedClosing : Code := ⟨100⟩

/-- An opening bracket that is never closed. -/
def unclosedOpening : Code := ⟨101⟩

/-- A danda outside literals. -/
def strayDanda : Code := ⟨102⟩

/-- The backend refused the target text. -/
def backendFailed : Code := ⟨200⟩

def stage (c : Code) : Stage :=
  if 200 ≤ c.number then .backend else .source

/-- Written with three digits at least, as in `E100`. -/
def display (c : Code) : Text :=
  'E' :: Text.ofNatPadded 3 c.number

end Code

/-- One finding. -/
structure Diagnostic where
  code : Code
  severity : Severity
  stage : Stage
  message : Text
  file : Text
  span : Span
  /-- The source line on which the span starts. -/
  sourceLine : Text
  suggestion : Option Text
deriving DecidableEq, Repr

namespace Diagnostic

/-- A diagnostic without a file, at the first place of the text. -/
def new (severity : Severity) (code : Code) (message : Text) : Diagnostic where
  code := code
  severity := severity
  stage := code.stage
  message := message
  file := []
  span := .point 1 1
  sourceLine := []
  suggestion := none

def inFile (d : Diagnostic) (file : Text) : Diagnostic :=
  { d with file := file }

/-- Puts the diagnostic at a place and records the line there. -/
def moveTo (d : Diagnostic) (span : Span) (sourceLine : Text) : Diagnostic :=
  { d with span := span, sourceLine := sourceLine }

def suggest (d : Diagnostic) (suggestion : Text) : Diagnostic :=
  { d with suggestion := some suggestion }

/-- Written as in `main:3:7: error[E100] unmatched closing ')'`. -/
def display (d : Diagnostic) : Text :=
  d.file ++ ':' :: d.span.display ++ ": " ++ d.severity.name ++ '[' :: d.code.display
    ++ "] " ++ d.message

end Diagnostic
end BanglaSource
