-- SUMMARY: The JSON form of cache entries.
import BanglaSource.Cache.Entry
import BanglaSource.Json.Printer
import BanglaSource.Json.Record

/-!
# Entries as JSON
-/
namespace BanglaSource.Entry

open Json (Tree)

def toJson (e : Entry) : Json :=
  .obj
    [ ("output", .str e.output),
      ("position_map", (e.positionMap.getD .null).canonical),
      ("created_at", .nat e.createdAt),
      ("options", e.options.canonical) ]

/-- The text that an entry file holds. -/
def print (e : Entry) : Text :=
  e.toJson.print

def ofTree? (t : Tree) : Option Entry := do
  match ← t.parts? ["output", "position_map", "created_at", "options"] 1 with
  | [some output, positionMap, some createdAt, options] =>
    let free := Tree.free? (Tree.maxDepth - 1)
    return {
      output := ← output.text?
      positionMap := ← (positionMap.getD .null).nullable? free
      createdAt := ← createdAt.nat? 64
      options := ← free (options.getD .null) }
  | _ => none

/-- Reads the text of an entry file. -/
def parse? (s : Text) : Option Entry :=
  (Tree.parse? s).bind ofTree?

end BanglaSource.Entry
