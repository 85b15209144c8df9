-- SUMMARY: Blank characters (Unicode White_Space), with trimming and splitting into words.
import BanglaSource.Text

/-!
# Blank characters

A character is blank when Unicode gives it the property White_Space. The
property holds of 25 characters: the ASCII controls from tab to carriage return,
space, next line, the no-break space, and the separators of the blocks beyond.
Zero-width joiners are not blank.
-/
namespace BanglaSource

/-- Whether `c` has the Unicode property White_Space. -/
def isBlank (c : Char) : Bool :=
  let n := c.toNat
  (0x09 ≤ n && n ≤ 0x0D) || n == 0x20 || n == 0x85 || n == 0xA0 || n == 0x1680
    || (0x2000 ≤ n && n ≤ 0x200A) || n == 0x2028 || n == 0x2029 || n == 0x202F
    || n == 0x205F || n == 0x3000

namespace Text

/-- The text without the blanks at both ends. -/
def trim (s : Text) : Text :=
  ((s.dropWhile isBlank).reverse.dropWhile isBlank).reverse

/-- The maximal runs of characters that are not blank. -/
def words (s : Text) : List Text :=
  (s.splitOnP isBlank).filter fun w => !w.isEmpty

/-- Whether the text holds blanks only. -/
def isBlankText (s : Text) : Bool :=
  s.all isBlank

end Text
end BanglaSource
