-- SUMMARY: The target-language text of lexemes and of whole sources.
import BanglaSource.Identifier
import BanglaSource.Keyword
import BanglaSource.Token.Lexer

/-!
# Target text

Each lexeme has a piece of target text of its own, and the target text of a
source is the pieces in order. Keywords become their targets, digits become
ASCII, other Bangla words become identifiers; literals and symbols stay. With
`keepNames` set, words that are no keywords stay as well.
-/
namespace BanglaSource

/-- The target text of a word. -/
def targetWord (keepNames : Bool) (word : Text) : Text :=
  match Keyword.find? word with
  | some k => k.target
  | none =>
    if !keepNames && Script.hasBangla word then Identifier.ofText word else word

/-- The target text of a lexeme. -/
def Lexeme.target (keepNames : Bool) (l : Lexeme) : Text :=
  match l.kind with
  | .word => targetWord keepNames l.text
  | .number => Script.latinDigits l.text
  | .string | .comment | .pattern | .symbol => l.text

/-- The target text of lexemes in order. -/
def targetLexemes (keepNames : Bool) (ls : List Lexeme) : Text :=
  ls.flatMap (·.target keepNames)

/-- The target text of a source. -/
def targetText (keepNames : Bool) (source : Text) : Text :=
  targetLexemes keepNames (lexemes source)

end BanglaSource
