-- SUMMARY: The Latin fragment of each Bangla character.
import BanglaSource.Text

/-!
# Graphemes

The table spells one Bangla character with a fragment of lower-case Latin
letters or one digit. It expects canonical text, so the nukta consonants and the
two-part vowel signs appear as single characters. Virama, avagraha and stray
nukta or length marks are known but silent.
-/
namespace BanglaSource.Grapheme

/-- Each character of the table with its fragment. -/
def table : List (Char × Text) :=
  List.map (fun (c, latin) => (c, String.toList latin))
    [
      -- independent vowels
      ('অ', "o"), ('আ', "a"), ('ই', "i"), ('ঈ', "ee"), ('উ', "u"), ('ঊ', "oo"),
      ('ঋ', "ri"), ('এ', "e"), ('ঐ', "oi"), ('ও', "o"), ('ঔ', "ou"),
      -- consonants and consonant signs
      ('ক', "k"), ('খ', "kh"), ('গ', "g"), ('ঘ', "gh"), ('ঙ', "ng"), ('চ', "ch"),
      ('ছ', "chh"), ('জ', "j"), ('ঝ', "jh"), ('ঞ', "n"), ('ট', "t"), ('ঠ', "th"),
      ('ড', "d"), ('ঢ', "dh"), ('ণ', "n"), ('ত', "t"), ('থ', "th"), ('দ', "d"),
      ('ধ', "dh"), ('ন', "n"), ('প', "p"), ('ফ', "ph"), ('ব', "b"), ('ভ', "bh"),
      ('ম', "m"), ('য', "j"), ('র', "r"), ('ল', "l"), ('শ', "sh"), ('ষ', "sh"),
      ('স', "s"), ('হ', "h"), ('\u09dc', "r"), ('\u09dd', "rh"), ('\u09df', "y"),
      ('ৎ', "t"), ('\u0982', "ng"), ('\u0983', "h"), ('\u0981', "n"),
      -- vowel signs
      ('\u09be', "a"), ('\u09bf', "i"), ('\u09c0', "ee"), ('\u09c1', "u"),
      ('\u09c2', "oo"), ('\u09c3', "ri"), ('\u09c7', "e"), ('\u09c8', "oi"),
      ('\u09cb', "o"), ('\u09cc', "ou"),
      -- silent marks
      ('\u09cd', ""), ('\u09bc', ""), ('ঽ', ""), ('\u09d7', ""),
      -- digits
      ('০', "0"), ('১', "1"), ('২', "2"), ('৩', "3"), ('৪', "4"), ('৫', "5"), ('৬', "6"),
      ('৭', "7"), ('৮', "8"), ('৯', "9") ]

/-- The fragment of a character, empty for a silent one and none for a character
    outside the table. -/
def fragment? (c : Char) : Option Text :=
  table.lookup c

end BanglaSource.Grapheme
