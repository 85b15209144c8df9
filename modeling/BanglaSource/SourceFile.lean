-- SUMMARY: A named source text with an index of the byte offsets at which its lines start.
import BanglaSource.Text

/-!
# Source files

Lines are found through an index of byte offsets: a line is the slice between
two neighbouring starts, and the line of an offset is the number of starts at or
before it.
-/
namespace BanglaSource

/-- A source text and the name under which it is reported. -/
structure SourceFile where
  name : Text
  text : Text
deriving DecidableEq, Repr

namespace SourceFile

/-- The byte offsets just after each line feed of a text that stands at byte
    `offset`. -/
def startsAfter (offset : Nat) : Text → List Nat
  | [] => []
  | c :: s =>
    let next := offset + c.utf8Size
    if c = '\n' then next :: startsAfter next s else startsAfter next s

/-- The byte offset at which each line starts. -/
def lineStarts (f : SourceFile) : List Nat :=
  0 :: startsAfter 0 f.text

/-- The number of lines. A trailing line feed opens one more, empty, line. -/
def lineCount (f : SourceFile) : Nat :=
  f.lineStarts.length

/-- A line without one carriage return at its end. -/
def stripReturn (s : Text) : Text :=
  if s.getLast? = some '\r' then s.dropLast else s

/-- The text of line `number`, counted from one, without its terminator. -/
def line? (f : SourceFile) (number : Nat) : Option Text :=
  match number with
  | 0 => none
  | index + 1 =>
    f.lineStarts[index]?.map fun start =>
      let stop := match f.lineStarts[index + 1]? with
        | some next => next - 1
        | none => Text.byteLength f.text
      stripReturn (Text.takeBytes (stop - start) (Text.dropBytes start f.text))

/-- The line, counted from one, that holds the byte at `offset`. An offset past
    the end lies on the last line. -/
def lineOfOffset (f : SourceFile) (offset : Nat) : Nat :=
  f.lineStarts.countP (· ≤ offset)

end SourceFile
end BanglaSource
