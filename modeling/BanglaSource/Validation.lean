-- SUMMARY: Source checks: unmatched and unclosed brackets, and dandas used as statement ends.
import BanglaSource.Diagnostic.Report
import BanglaSource.SourceFile
import BanglaSource.Token.Lexer

/-!
# Validation

Brackets and dandas are looked for among the symbols of the source, so those
inside literals do not count. Each kind of bracket is matched on its own, without
regard to the other kinds. A closer without an open partner is an error at its
place; a kind that is left open is one error at its outermost open bracket.
-/
namespace BanglaSource

inductive Bracket where
  | round
  | square
  | curly
deriving DecidableEq, Repr

namespace Bracket

/-- The kinds in the order in which open ones are reported. -/
def all : List Bracket := [round, square, curly]

def opener : Bracket → Char
  | round => '('
  | square => '['
  | curly => '\x7b'

def closer : Bracket → Char
  | round => ')'
  | square => ']'
  | curly => '\x7d'

end Bracket

namespace Validation

/-- The danda, which ends a sentence in Bangla prose. -/
def danda : Char := '\u0964'

/-- The brackets that are open, by kind, the innermost first. -/
abbrev OpenBrackets := Bracket → List Span

/-- Sets the open brackets of one kind. -/
def OpenBrackets.set (opened : OpenBrackets) (b : Bracket) (spans : List Span) : OpenBrackets :=
  fun kind => if kind = b then spans else opened kind

/-- What a symbol of one character is to validation. -/
inductive Mark where
  | opening (b : Bracket)
  | closing (b : Bracket)
  | danda
deriving DecidableEq, Repr

def Mark.ofChar? (c : Char) : Option Mark :=
  match Bracket.all.find? (·.opener = c) with
  | some b => some (.opening b)
  | none =>
    match Bracket.all.find? (·.closer = c) with
    | some b => some (.closing b)
    | none => if c = Validation.danda then some .danda else none

/-- The mark that a token stands for, if it is a symbol of one character. -/
def Mark.ofToken? (t : Token) : Option Mark :=
  match t.kind, t.text with
  | .symbol, [c] => Mark.ofChar? c
  | _, _ => none

-- ---------------------------------------------------------------------------
-- Findings
-- ---------------------------------------------------------------------------

/-- A character between apostrophes. -/
def quoted (c : Char) : Text :=
  ['\x27', c, '\x27']

/-- Puts a diagnostic at a span of the file and records the line there. -/
def locate (file : SourceFile) (span : Span) (d : Diagnostic) : Diagnostic :=
  (d.inFile file.name).moveTo span ((file.line? span.startLine).getD [])

def unmatched (file : SourceFile) (b : Bracket) (span : Span) : Diagnostic :=
  locate file span <|
    .new .error .unmatchedClosing ("unmatched closing ".toList ++ quoted b.closer)

def unclosed (file : SourceFile) (b : Bracket) (span : Span) : Diagnostic :=
  (locate file span <|
    .new .error .unclosedOpening ("unclosed opening ".toList ++ quoted b.opener)).suggest
      ("add a matching ".toList ++ quoted b.closer)

def stray (file : SourceFile) (span : Span) : Diagnostic :=
  (locate file span <|
    .new .warning .strayDanda "danda is not a statement terminator").suggest "use ';'"

/-- The findings on brackets that are still open at the end. -/
def unclosedFindings (file : SourceFile) (opened : OpenBrackets) : List Diagnostic :=
  Bracket.all.filterMap fun b => (opened b).getLast?.map (unclosed file b)

/-- The findings on tokens in order, followed by those on open brackets. -/
def findings (file : SourceFile) (opened : OpenBrackets) : List Token → List Diagnostic
  | [] => unclosedFindings file opened
  | t :: ts =>
    match Mark.ofToken? t with
    | some (.opening b) => findings file (opened.set b (t.span :: opened b)) ts
    | some (.closing b) =>
      match opened b with
      | _ :: outer => findings file (opened.set b outer) ts
      | [] => unmatched file b t.span :: findings file opened ts
    | some .danda => stray file t.span :: findings file opened ts
    | none => findings file opened ts

end Validation

/-- Checks a source text, which is reported under the name `file`. -/
def validate (source file : Text) : Report :=
  .ofList (Validation.findings ⟨file, source⟩ (fun _ => []) (tokenize source))

end BanglaSource
