-- SUMMARY: Lexemes (a kind and the exact source characters) and tokens (a lexeme with its span).
import BanglaSource.Text.Blank
import BanglaSource.Span

/-!
# Tokens

A lexeme holds the exact characters of the source, delimiters included, so that
the texts of all lexemes in order are the source text. A token adds the place.
-/
namespace BanglaSource

/-- What a token is. -/
inductive Kind where
  /-- An identifier or keyword of either script. -/
  | word
  /-- Digits of either script, with points. -/
  | number
  /-- A quoted string with its quotes. -/
  | string
  /-- A line or block comment with its markers. -/
  | comment
  /-- A pattern between slashes with its flags. -/
  | pattern
  /-- One punctuation character, or a run of blanks. -/
  | symbol
deriving DecidableEq, Repr

namespace Kind

def name : Kind → Text
  | word => "word"
  | number => "number"
  | string => "string"
  | comment => "comment"
  | pattern => "pattern"
  | symbol => "symbol"

def all : List Kind := [word, number, string, comment, pattern, symbol]

def ofName? (s : Text) : Option Kind :=
  all.find? (·.name = s)

/-- Strings, comments and patterns. Their text is never touched. -/
def isLiteral : Kind → Bool
  | string | comment | pattern => true
  | word | number | symbol => false

end Kind

/-- A kind with the exact source characters. -/
structure Lexeme where
  kind : Kind
  text : Text
deriving DecidableEq, Repr

namespace Lexeme

def isLiteral (l : Lexeme) : Bool :=
  l.kind.isLiteral

/-- A symbol made of blanks only. -/
def isBlank (l : Lexeme) : Bool :=
  l.kind == .symbol && Text.isBlankText l.text

end Lexeme

/-- A lexeme at its place in the source. -/
structure Token extends Lexeme where
  span : Span
deriving DecidableEq, Repr

end BanglaSource
