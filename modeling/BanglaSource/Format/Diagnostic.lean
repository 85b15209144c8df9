-- SUMMARY: The JSON form of diagnostics and reports.
import BanglaSource.Diagnostic.Report
import BanglaSource.Format.Position

/-!
# Diagnostics as JSON

The span of a diagnostic has no object of its own: its fields stand among those
of the diagnostic. A diagnostic is always an object, and its unknown fields must
have values.
-/
namespace BanglaSource

open Json (Tree)

def Severity.ofTree? : Tree → Option Severity := Tree.oneOf? all name

def Stage.ofTree? : Tree → Option Stage := Tree.oneOf? all name

def Code.ofTree? (t : Tree) : Option Code := (t.nat? 16).map Code.mk

def Code.toJson (c : Code) : Json := .nat c.number

namespace Diagnostic

/-- The names of the fields that are not those of the span. -/
def ownFields : List Text :=
  ["code", "severity", "category", "message", "file", "source_line", "suggestion"]

def toJson (d : Diagnostic) : Json :=
  let before : Assoc Json :=
    [ ("code", d.code.toJson),
      ("severity", .str d.severity.name),
      ("category", .str d.stage.name),
      ("message", .str d.message),
      ("file", .str d.file) ]
  let after : Assoc Json := [("source_line", .str d.sourceLine)]
  let suggestion : Assoc Json := match d.suggestion with
    | some s => [("suggestion", .str s)]
    | none => []
  .obj (before ++ d.span.toFields ++ after ++ suggestion)

/-- Reads a diagnostic in which at most `depth` objects and arrays are nested. -/
def ofTree? (depth : Nat) (t : Tree) : Option Diagnostic := do
  let .obj fields := t | none
  let fields ← Tree.keyed? fields
  let others := fields.filter fun (key, _) => !ownFields.contains key
  let _ ← others.mapM fun (_, t) => t.value? (depth - 1)
  let span ← (Span.fieldNames.mapM (Tree.unique? others)).bind Span.ofParts?
  match ← ownFields.mapM (Tree.unique? fields) with
  | [some code, some severity, some stage, some message, some file, some sourceLine,
      suggestion] =>
    return {
      code := ← Code.ofTree? code
      severity := ← Severity.ofTree? severity
      stage := ← Stage.ofTree? stage
      message := ← message.text?
      file := ← file.text?
      span := span
      sourceLine := ← sourceLine.text?
      suggestion := ← (suggestion.getD .null).nullable? Tree.text? }
  | _ => none

end Diagnostic

namespace Report

def toJson (r : Report) : Json :=
  .obj
    [ ("stored", .arr (r.stored.map Diagnostic.toJson)),
      ("error_count", .nat r.errorCount),
      ("warning_count", .nat r.warningCount) ]

def ofTree? (t : Tree) : Option Report := do
  match ← t.parts? ["stored", "error_count", "warning_count"] 0 with
  | [some stored, some errorCount, some warningCount] =>
    return {
      stored := ← stored.list? (Diagnostic.ofTree? (Tree.maxDepth - 2))
      errorCount := ← errorCount.nat? 64
      warningCount := ← warningCount.nat? 64 }
  | _ => none

end Report
end BanglaSource
