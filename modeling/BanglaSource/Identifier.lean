-- SUMMARY: Latin identifiers for words of any script: valid, never reserved, and a function of the word alone.
import BanglaSource.Text.Blank
import BanglaSource.Identifier.Cluster
import BanglaSource.Identifier.Grapheme
import BanglaSource.Identifier.Reserved
import BanglaSource.Identifier.Vocabulary

/-!
# Identifiers

A word that already is an identifier stays as it is. Any other word is spelled
from the vocabulary or, if it is not listed, letter by letter with its consonant
clusters filled. What comes out is guarded against reserved words, against being
empty, and against a digit in front.
-/
namespace BanglaSource.Identifier

-- ---------------------------------------------------------------------------
-- Validity
-- ---------------------------------------------------------------------------

/-- Whether `c` may stand in an identifier. -/
def isPart (c : Char) : Bool :=
  c.isAlphanum || c == '_' || c == '$'

/-- Whether `c` may start an identifier. -/
def isStart (c : Char) : Bool :=
  c.isAlpha || c == '_' || c == '$'

/-- Whether `s` is an identifier of the target language. -/
def isValid : Text → Bool
  | [] => false
  | c :: s => isStart c && s.all isPart

-- ---------------------------------------------------------------------------
-- Guarding
-- ---------------------------------------------------------------------------

/-- Put in front of a spelling that is a reserved word. -/
def reservedMark : Text := "bn_"

/-- The identifier of a word of which nothing is left. -/
def placeholder : Text := "bangla_var"

/-- The identifier for a spelling made of characters of identifiers. -/
def guard (s : Text) : Text :=
  let s := if Reserved.isReserved s then reservedMark ++ s else s
  match s with
  | [] => placeholder
  | c :: _ => if c.isDigit then '_' :: s else s

-- ---------------------------------------------------------------------------
-- Spelling
-- ---------------------------------------------------------------------------

/-- The Latin spelling of one character. Unknown characters are dropped. -/
def spellChar (c : Char) : Text :=
  if isPart c then [c] else (Grapheme.fragment? c).getD []

/-- The Latin spelling of a canonical word, letter by letter. -/
def spell (word : Text) : Text :=
  Cluster.fill (word.flatMap spellChar)

/-- The identifier of a word that is not valid as it stands. Blanks around it
    are ignored. -/
def ofForeign (word : Text) : Text :=
  let word := Script.canonicalize (Text.trim word)
  guard ((Vocabulary.find? word).getD (spell word))

/-- The identifier of a word without blanks inside. -/
def ofWord (word : Text) : Text :=
  if isValid word then guard word else ofForeign word

/-- The identifier of a text. Words between blanks become parts joined by
    underscores. -/
def ofText (s : Text) : Text :=
  if isValid s then guard s
  else match Text.words s with
    | w :: v :: ws => List.intercalate ['_'] ((w :: v :: ws).map ofWord)
    | _ => ofForeign s

end BanglaSource.Identifier
