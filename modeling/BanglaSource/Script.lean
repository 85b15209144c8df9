-- SUMMARY: Character classes of Bangla source text: the Bengali block, digits of both scripts, characters of words.
import BanglaSource.Text

/-!
# Script

The Bengali block of Unicode is U+0980 to U+09FF, and its digits are U+09E6 to
U+09EF. Words mix Latin and Bangla letters; inside a word the two zero-width
joiners may stand, because they shape conjuncts.
-/
namespace BanglaSource.Script

-- ---------------------------------------------------------------------------
-- Classes
-- ---------------------------------------------------------------------------

/-- Whether `c` belongs to the Bengali block. -/
def isBangla (c : Char) : Bool :=
  0x0980 ≤ c.toNat && c.toNat ≤ 0x09FF

/-- Whether `c` is one of the digits ০ to ৯. -/
def isBanglaDigit (c : Char) : Bool :=
  0x09E6 ≤ c.toNat && c.toNat ≤ 0x09EF

/-- Whether `c` is a decimal digit of either script. -/
def isAnyDigit (c : Char) : Bool :=
  c.isDigit || isBanglaDigit c

/-- Whether `c` may start a word: a Latin letter, an underscore, a dollar sign,
    or a Bangla character that is no digit. -/
def isWordStart (c : Char) : Bool :=
  c.isAlpha || c == '_' || c == '$' || (isBangla c && !isBanglaDigit c)

/-- Whether `c` is a zero-width joiner or non-joiner. -/
def isJoiner (c : Char) : Bool :=
  c.toNat == 0x200C || c.toNat == 0x200D

/-- Whether `c` may continue a word. -/
def isWordContinue (c : Char) : Bool :=
  isWordStart c || isAnyDigit c || isJoiner c

/-- Whether some character of the text is Bangla. -/
def hasBangla (s : Text) : Bool :=
  s.any isBangla

-- ---------------------------------------------------------------------------
-- Digits
-- ---------------------------------------------------------------------------

/-- The numeric value of a Bangla digit. -/
def banglaDigitValue? (c : Char) : Option Nat :=
  if isBanglaDigit c then some (c.toNat - 0x09E6) else none

/-- The ASCII digit of the same value for a Bangla digit, and any other
    character unchanged. -/
def latinDigit (c : Char) : Char :=
  match banglaDigitValue? c with
  | some d => Nat.digitChar d
  | none => c

/-- Bangla digits replaced by ASCII ones. -/
def latinDigits (s : Text) : Text :=
  s.map latinDigit

end BanglaSource.Script
