-- SUMMARY: The JSON forms of pipeline options, backend output and keyword categories.
import BanglaSource.Backend
import BanglaSource.Json.Printer
import BanglaSource.Json.Record
import BanglaSource.Keyword.Category
import BanglaSource.Options

/-!
# Options, output and categories as JSON
-/
namespace BanglaSource

open Json (Tree)

namespace Options

def toJson (o : Options) : Json :=
  .obj [("no_transliterate", .bool o.keepNames), ("cache_enabled", .bool o.useCache)]

def ofTree? (t : Tree) : Option Options := do
  match ← t.parts? ["no_transliterate", "cache_enabled"] 0 with
  | [some keepNames, some useCache] =>
    return { keepNames := ← keepNames.bool?, useCache := ← useCache.bool? }
  | _ => none

end Options

namespace Compiled

def toJson (c : Compiled) : Json :=
  .obj [("code", .str c.code), ("map", (c.map.getD .null).canonical)]

def ofTree? (t : Tree) : Option Compiled := do
  match ← t.parts? ["code", "map"] 0 with
  | [some code, map] =>
    return {
      code := ← code.text?
      map := ← (map.getD .null).nullable? (Tree.free? (Tree.maxDepth - 1)) }
  | _ => none

end Compiled

def Category.ofTree? : Tree → Option Category := Tree.oneOf? all name

end BanglaSource
