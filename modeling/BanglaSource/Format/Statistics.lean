-- SUMMARY: The JSON forms of line statistics and cache statistics.
import BanglaSource.Cache
import BanglaSource.Json.Record
import BanglaSource.LineStats

/-!
# Statistics as JSON
-/
namespace BanglaSource

open Json (Tree)

namespace LineStats

def toJson (s : LineStats) : Json :=
  .obj
    [ ("total_lines", .nat s.totalLines),
      ("code_lines", .nat s.codeLines),
      ("comment_lines", .nat s.commentLines),
      ("blank_lines", .nat s.blankLines),
      ("characters", .nat s.characters) ]

def ofTree? (t : Tree) : Option LineStats := do
  match ← t.parts?
      ["total_lines", "code_lines", "comment_lines", "blank_lines", "characters"] 0 with
  | [some total, some code, some comment, some blank, some characters] =>
    let count := Tree.nat? 64
    return {
      totalLines := ← count total
      codeLines := ← count code
      commentLines := ← count comment
      blankLines := ← count blank
      characters := ← count characters }
  | _ => none

end LineStats

namespace CacheStats

def toJson (s : CacheStats) : Json :=
  .obj
    [ ("memory_entries", .nat s.memoryEntries),
      ("memory_capacity", .nat s.memoryCapacity),
      ("disk_entries", .nat s.diskEntries),
      ("disk_bytes", .nat s.diskBytes),
      ("enabled", .bool s.enabled) ]

def ofTree? (t : Tree) : Option CacheStats := do
  match ← t.parts?
      ["memory_entries", "memory_capacity", "disk_entries", "disk_bytes", "enabled"] 0 with
  | [some memoryEntries, some memoryCapacity, some diskEntries, some diskBytes, some enabled] =>
    let count := Tree.nat? 64
    return {
      memoryEntries := ← count memoryEntries
      memoryCapacity := ← count memoryCapacity
      diskEntries := ← count diskEntries
      diskBytes := ← count diskBytes
      enabled := ← enabled.bool? }
  | _ => none

end CacheStats
end BanglaSource
