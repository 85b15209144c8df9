-- SUMMARY: Positions and regions of a source text, counted in lines and characters.
import BanglaSource.Text

/-!
# Positions and spans

Lines and columns count from one. A column counts characters, so that every
vowel sign and every virama has a column of its own. The end of a span is the
last character that it covers.
-/
namespace BanglaSource

/-- A place in a source text, before the character that stands there. -/
structure Position where
  line : Nat
  column : Nat
deriving DecidableEq, Repr

namespace Position

/-- The place before the first character. -/
def start : Position := ⟨1, 1⟩

/-- The place after the character `c`. -/
def next (p : Position) (c : Char) : Position :=
  if c = '\n' then ⟨p.line + 1, 1⟩ else ⟨p.line, p.column + 1⟩

/-- The place after the text `s`. -/
def after (p : Position) (s : Text) : Position :=
  s.foldl next p

@[simp] theorem after_nil (p : Position) : p.after [] = p := rfl

@[simp] theorem after_append (p : Position) (s t : Text) :
    p.after (s ++ t) = (p.after s).after t :=
  List.foldl_append

end Position

/-- A region of a source text. -/
structure Span where
  startLine : Nat
  startColumn : Nat
  endLine : Nat
  endColumn : Nat
deriving DecidableEq, Repr

namespace Span

/-- A span of one character. -/
def point (line column : Nat) : Span := ⟨line, column, line, column⟩

/-- The span of a text that stands between two places. A text that ends with a
    line feed ends in column one of the next line. -/
def between (first last : Position) : Span :=
  ⟨first.line, first.column, last.line, max (last.column - 1) 1⟩

/-- The first and the last line that the span touches. -/
def lines (s : Span) : Nat × Nat :=
  (s.startLine, max s.endLine s.startLine)

def isMultiline (s : Span) : Bool :=
  s.startLine < s.endLine

/-- Written `3:7` for one place, `3:7-15` within a line and `3:7-4:2` across
    lines. -/
def display (s : Span) : Text :=
  let start := Text.ofNat s.startLine ++ ':' :: Text.ofNat s.startColumn
  if s.isMultiline then
    start ++ '-' :: Text.ofNat s.endLine ++ ':' :: Text.ofNat s.endColumn
  else if s.startColumn < s.endColumn then
    start ++ '-' :: Text.ofNat s.endColumn
  else
    start

end Span
end BanglaSource
