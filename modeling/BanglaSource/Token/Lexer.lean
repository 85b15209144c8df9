-- SUMMARY: Cuts any source text into lexemes, deciding division versus pattern, and places them as tokens.
import BanglaSource.Script.Canonical
import BanglaSource.Token
import BanglaSource.Token.Literal

/-!
# Lexer

Every text can be cut into lexemes: a literal that is never closed runs to the
end, and a character that fits nothing else is a symbol. A slash that opens no
comment starts a pattern only in value position, that is, where a value and not
an operator is expected. The position follows from the last lexeme that is
neither blank nor a comment.
-/
namespace BanglaSource

-- ---------------------------------------------------------------------------
-- Value position
-- ---------------------------------------------------------------------------

/-- Words after which a value is expected: those of the target language, and the
    localized keywords that stand for them. -/
def expressionKeywords : List Text :=
  [ "return", "throw", "await", "delete", "void", "typeof", "new", "yield", "ফেরত",
    "প্রেরণ", "ফিরিয\u09bcে_দাও", "ফেলা", "নিক্ষেপ", "ছুড\u09bcে_দাও", "অপেক্ষা",
    "অপেক্ষা_করো", "মুছো", "টাইপ", "ধরন", "কিসের", "নতুন", "ভ্যাড", "শূন্যতা" ]

/-- The canonical forms of the words after which a value is expected. -/
def expressionIndex : List Text :=
  expressionKeywords.map Script.canonicalize

/-- Operators, separators and opening brackets, after which a value is expected. -/
def expressionSymbols : Text :=
  ['+', '-', '*', '/', '%', '=', '!', '<', '>', '&', '|', '^', '~', '?', ':', ',', ';',
    '(', '[', '\x7b']

namespace Lexeme

/-- Whether a value is expected after the lexeme, if `inValue` says so for the
    place before it. -/
def leavesValue (inValue : Bool) (l : Lexeme) : Bool :=
  match l.kind with
  | .symbol =>
    if l.isBlank then inValue
    else match l.text with
      | [c] => expressionSymbols.contains c
      | _ => false
  | .word => expressionIndex.contains (Script.canonicalize l.text)
  | .comment => inValue
  | .number | .string | .pattern => false

end Lexeme

-- ---------------------------------------------------------------------------
-- One lexeme
-- ---------------------------------------------------------------------------

namespace Lexer

/-- What a scan finds after a first character: the kind, the other characters of
    the lexeme, and the rest of the text. -/
structure Scan where
  kind : Kind
  tail : Text
  rest : Text
deriving DecidableEq, Repr

/-- A lexeme that takes the longest run of characters of a class. -/
def run (kind : Kind) (p : Char → Bool) (s : Text) : Scan :=
  ⟨kind, s.takeWhile p, s.dropWhile p⟩

/-- A lexeme of one character. -/
def single (s : Text) : Scan :=
  ⟨.symbol, [], s⟩

/-- The lexeme that a slash opens. -/
def scanSlash (inValue : Bool) (s : Text) : Scan :=
  match s with
  | '/' :: _ => run .comment (· != '\n') s
  | '*' :: s =>
    let (inside, rest) := Literal.closeComment s
    ⟨.comment, '*' :: inside, rest⟩
  | _ =>
    if inValue then
      match Literal.closePattern s with
      | some (inside, rest) => ⟨.pattern, inside, rest⟩
      | none => single s
    else single s

/-- The lexeme that starts with `c`, followed by `s`. -/
def scan (inValue : Bool) (c : Char) (s : Text) : Scan :=
  if Literal.isQuote c then
    let (inside, rest) := Literal.closeString c s
    ⟨.string, inside, rest⟩
  else if c = '/' then scanSlash inValue s
  else if Script.isAnyDigit c then run .number (fun c => Script.isAnyDigit c || c == '.') s
  else if Script.isWordStart c then run .word Script.isWordContinue s
  else if isBlank c then run .symbol isBlank s
  else single s

theorem run_append (kind : Kind) (p : Char → Bool) (s : Text) :
    (run kind p s).tail ++ (run kind p s).rest = s :=
  List.takeWhile_append_dropWhile

theorem scanSlash_append (inValue : Bool) (s : Text) :
    (scanSlash inValue s).tail ++ (scanSlash inValue s).rest = s := by
  unfold scanSlash
  split
  · exact run_append ..
  · simp [Literal.closeComment_append]
  · split
    · split
      · next h => exact Literal.closePattern_append h
      · rfl
    · rfl

/-- A scan loses no character. -/
theorem scan_append (inValue : Bool) (c : Char) (s : Text) :
    (scan inValue c s).tail ++ (scan inValue c s).rest = s := by
  unfold scan
  split
  · simp [Literal.closeString_append]
  · split
    · exact scanSlash_append ..
    · split
      · exact run_append ..
      · split
        · exact run_append ..
        · split
          · exact run_append ..
          · rfl

theorem length_scan_rest_le (inValue : Bool) (c : Char) (s : Text) :
    (scan inValue c s).rest.length ≤ s.length := by
  have h := congrArg List.length (scan_append inValue c s)
  simp only [List.length_append] at h
  omega

-- ---------------------------------------------------------------------------
-- All lexemes
-- ---------------------------------------------------------------------------

/-- The lexemes of a text that stands in value position or not. -/
def lexemesFrom (inValue : Bool) : Text → List Lexeme
  | [] => []
  | c :: s =>
    let found := scan inValue c s
    let lexeme : Lexeme := ⟨found.kind, c :: found.tail⟩
    lexeme :: lexemesFrom (lexeme.leavesValue inValue) found.rest
termination_by s => s.length
decreasing_by
  have := length_scan_rest_le inValue c s
  simp only [List.length_cons]
  omega

/-- Gives lexemes in order their places, from `start` on. -/
def place (start : Position) : List Lexeme → List Token
  | [] => []
  | l :: ls =>
    let stop := start.after l.text
    { l with span := .between start stop } :: place stop ls

end Lexer

/-- The lexemes of a source text, which starts in value position. -/
def lexemes (source : Text) : List Lexeme :=
  Lexer.lexemesFrom true source

/-- The tokens of a source text. -/
def tokenize (source : Text) : List Token :=
  Lexer.place .start (lexemes source)

end BanglaSource
