-- SUMMARY: The failure of a transpilation, its message and its diagnostic.
import BanglaSource.Backend
import BanglaSource.Diagnostic
import BanglaSource.SourceFile

/-!
# Failures

Only the backend can fail. Its byte offset becomes a line of the target text.
-/
namespace BanglaSource

/-- A backend refused the target text. -/
structure Failure where
  /-- The line of the target text, if the backend gave a place. -/
  line : Option Nat
  message : Text
deriving DecidableEq, Repr

namespace Failure

/-- The failure for a refusal of the text of `target`. -/
def ofRefusal (target : SourceFile) (r : Refusal) : Failure where
  line := r.offset.map target.lineOfOffset
  message := r.message

def display (f : Failure) : Text :=
  let line := match f.line with
    | some n => Text.ofNat n
    | none => ['?']
  "Transpilation error at line ".toList ++ line ++ ": " ++ f.message

/-- The diagnostic of a failure, at the start of its line of the target text. -/
def toDiagnostic (f : Failure) (target : SourceFile) : Diagnostic :=
  ((Diagnostic.new .error .backendFailed f.message).inFile target.name).moveTo
    (.point (f.line.getD 1) 1) ((f.line.bind target.line?).getD [])

end Failure
end BanglaSource
