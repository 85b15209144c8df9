-- SUMMARY: The canonical spelling of Bangla letters that have a one-character and a two-character form.
import BanglaSource.Script

/-!
# Canonical spelling

Three consonants (U+09DC, U+09DD, U+09DF) may be typed as one character or as a
base followed by the nukta U+09BC, and two vowel signs (U+09CB, U+09CC) as one
character or as two. The canonical spelling uses the single character for all
five. `expand` goes the other way and spells each of the five with two
characters.
-/
namespace BanglaSource.Script

/-- The single character for two adjacent characters that spell one letter. -/
def compose? (a b : Char) : Option Char :=
  match a, b with
  | '\u09a1', '\u09bc' => some '\u09dc'
  | '\u09a2', '\u09bc' => some '\u09dd'
  | '\u09af', '\u09bc' => some '\u09df'
  | '\u09c7', '\u09be' => some '\u09cb'
  | '\u09c7', '\u09d7' => some '\u09cc'
  | _, _ => none

/-- Whether `c` is the second half of a letter behind the character `previous`. -/
def completes (previous : Option Char) (c : Char) : Bool :=
  match previous, c with
  | some '\u09a1', '\u09bc' | some '\u09a2', '\u09bc' | some '\u09af', '\u09bc' => true
  | some '\u09c7', '\u09be' | some '\u09c7', '\u09d7' => true
  | _, _ => false

/-- Whether a character of a text behind `previous` is the second half of a letter. -/
def needsFoldingBehind (previous : Option Char) : Text → Bool
  | [] => false
  | c :: s => completes previous c || needsFoldingBehind (some c) s

/-- Whether two adjacent characters of the text spell one letter. -/
def needsFolding (s : Text) : Bool :=
  needsFoldingBehind none s

/-- Replaces pairs that spell one letter by that letter, from left to right. -/
def fold : Text → Text
  | a :: b :: s =>
    match compose? a b with
    | some c => c :: fold s
    | none => a :: fold (b :: s)
  | s => s

/-- The canonical spelling. A text with nothing to fold is returned as it is. -/
def canonicalize (s : Text) : Text :=
  if needsFolding s then fold s else s

/-- The two characters that spell a letter which also has a form of its own. -/
def decompose (c : Char) : Text :=
  match c with
  | '\u09dc' => ['\u09a1', '\u09bc']
  | '\u09dd' => ['\u09a2', '\u09bc']
  | '\u09df' => ['\u09af', '\u09bc']
  | '\u09cb' => ['\u09c7', '\u09be']
  | '\u09cc' => ['\u09c7', '\u09d7']
  | _ => [c]

/-- Spells every letter that has two forms with two characters. -/
def expand (s : Text) : Text :=
  s.flatMap decompose

end BanglaSource.Script
