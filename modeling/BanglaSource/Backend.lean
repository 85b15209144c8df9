-- SUMMARY: Backends, which turn target text into final output, and the two that need no compiler.
import BanglaSource.Json

/-!
# Backends

A backend gets the target text of a source with the name of the file, and gives
output or refuses the text. `Backend.passthrough` returns the text as it is.
`Backend.Script` describes a backend by data, so that a pipeline can be tried out
on output, position maps and refusals of one's choice.
-/
namespace BanglaSource

/-- The output of a backend. -/
structure Compiled where
  code : Text
  /-- A source map or another position map. -/
  map : Option Json
deriving Repr

/-- The refusal of a backend. -/
structure Refusal where
  message : Text
  /-- A byte offset into the target text. -/
  offset : Option Nat
deriving DecidableEq, Repr

/-- A backend as a function of the target text and the file name. -/
abbrev Backend := Text → Text → Except Refusal Compiled

namespace Backend

/-- Returns the target text as it is, without a map. -/
def passthrough : Backend :=
  fun target _ => .ok ⟨target, none⟩

/-- A backend that is given by data. -/
structure Script where
  /-- Texts that hold this one are refused. -/
  reject : Option Text := none
  message : Text := "rejected"
  /-- The offset that a refusal gives in place of the first occurrence. -/
  offset : Option (Option Nat) := none
  /-- Put in front of the target text. -/
  preamble : Text := []
  map : Option Json := none
  /-- Whether a map that is an object names the file. -/
  namesSource : Bool := false

/-- Sets a field of a value that is an object. -/
def setField (key : Text) (field : Json) : Json → Json
  | .obj fields => .obj (Assoc.insert key field fields)
  | v => v

/-- The backend that a script describes. -/
def ofScript (script : Script) : Backend := fun target file =>
  match script.reject.bind (Text.find? · target) with
  | some offset => .error ⟨script.message, script.offset.getD (some offset)⟩
  | none =>
    let name (map : Json) : Json :=
      if script.namesSource then setField "sources" (.arr [.str file]) map else map
    .ok ⟨script.preamble ++ target, script.map.map name⟩

end Backend
end BanglaSource
