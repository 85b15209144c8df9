-- SUMMARY: Cache entries: the output of a pipeline stage with its position map, creation time and options.
import BanglaSource.Json

/-!
# Cache entries

Times are milliseconds since the start of 1970. The JSON values of an entry are
kept in canonical form.
-/
namespace BanglaSource

/-- One cached result. -/
structure Entry where
  output : Text
  positionMap : Option Json
  createdAt : Nat
  /-- The options with which the entry is keyed. -/
  options : Json
deriving Repr

namespace Entry

/-- An entry created at time `now`. -/
def new (now : Nat) (options : Json) (output : Text) (positionMap : Option Json) : Entry where
  output := output
  positionMap := positionMap.map Json.canonical
  createdAt := now
  options := options.canonical

/-- The age at time `now`, zero for an entry from the future. -/
def age (e : Entry) (now : Nat) : Nat :=
  now - e.createdAt

end Entry
end BanglaSource
