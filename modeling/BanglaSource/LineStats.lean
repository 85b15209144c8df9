-- SUMMARY: Line and character counts of a source: code, comment and blank lines.
import Std.Data.HashSet
import BanglaSource.Token.Lexer

/-!
# Line statistics

A line counts as code if a token that is neither blank nor a comment touches it,
as a comment line if only comments do, and as blank otherwise.
-/
namespace BanglaSource

/-- The counts for one source text. -/
structure LineStats where
  totalLines : Nat
  codeLines : Nat
  commentLines : Nat
  blankLines : Nat
  characters : Nat
deriving DecidableEq, Repr

namespace LineStats

/-- The first and the last line that a token covers. A line feed at its end does
    not reach into the next line. -/
def lineRange (t : Token) : Nat × Nat :=
  let (first, last) := t.span.lines
  if t.text.getLast? = some '\n' && first < last then (first, last - 1) else (first, last)

/-- The numbers of the lines that a token covers. -/
def linesOf (t : Token) : List Nat :=
  let (first, last) := lineRange t
  List.range' first (last + 1 - first)

theorem mem_linesOf {t : Token} {n : Nat} :
    n ∈ linesOf t ↔ (lineRange t).1 ≤ n ∧ n ≤ (lineRange t).2 := by
  simp only [linesOf, List.mem_range'_1]
  omega

def isCode (t : Token) : Bool :=
  !t.isBlank && t.kind != .comment

def isComment (t : Token) : Bool :=
  t.kind == .comment

/-- The numbers of the lines that the tokens of one class cover. -/
def covered (tokens : List Token) (inClass : Token → Bool) : Std.HashSet Nat :=
  .ofList ((tokens.filter inClass).flatMap linesOf)

theorem contains_covered {tokens : List Token} {inClass : Token → Bool} {n : Nat} :
    (covered tokens inClass).contains n = true
      ↔ ∃ t ∈ tokens, inClass t = true ∧ n ∈ linesOf t := by
  simp [covered, and_assoc]

/-- The counts of a source text. -/
def ofSource (source : Text) : LineStats :=
  let tokens := tokenize source
  let total := (Text.lines source).length
  let numbers := List.range' 1 total
  let codeAt := covered tokens isCode
  let commentAt := covered tokens isComment
  let code := numbers.countP codeAt.contains
  let comment := numbers.countP fun n => !codeAt.contains n && commentAt.contains n
  { totalLines := total
    codeLines := code
    commentLines := comment
    blankLines := total - code - comment
    characters := source.length }

end LineStats
end BanglaSource
