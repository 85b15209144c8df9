-- SUMMARY: The JSON form of spans.
import BanglaSource.Json.Printer
import BanglaSource.Json.Record
import BanglaSource.Span

/-!
# Spans as JSON
-/
namespace BanglaSource.Span

open Json (Tree)

def fieldNames : List Text := ["line", "column", "end_line", "end_column"]

/-- The fields of a span. -/
def toFields (s : Span) : Assoc Json :=
  [ ("line", .nat s.startLine),
    ("column", .nat s.startColumn),
    ("end_line", .nat s.endLine),
    ("end_column", .nat s.endColumn) ]

def toJson (s : Span) : Json :=
  .obj s.toFields

/-- A span from its four parts, each a number of 32 bits. -/
def ofParts? : List (Option Tree) → Option Span
  | [some startLine, some startColumn, some endLine, some endColumn] => do
    let place := Tree.nat? 32
    return {
      startLine := ← place startLine
      startColumn := ← place startColumn
      endLine := ← place endLine
      endColumn := ← place endColumn }
  | _ => none

def ofTree? (t : Tree) : Option Span :=
  (t.parts? fieldNames 0).bind ofParts?

end BanglaSource.Span
