-- SUMMARY: The reserved words of the target language.
import BanglaSource.Text

/-!
# Reserved words

Keywords, words reserved in strict code, and the global names that cannot be
bound again. They are listed in lower case and compared without regard to ASCII
case.
-/
namespace BanglaSource.Reserved

/-- The reserved words in lower case. -/
def table : List Text :=
  List.map String.toList
    [ "break", "case", "catch", "class", "const", "continue", "debugger", "default",
      "delete", "do", "else", "enum", "export", "extends", "false", "finally", "for",
      "function", "if", "import", "in", "instanceof", "new", "null", "return", "super",
      "switch", "this", "throw", "true", "try", "typeof", "var", "void", "while", "with",
      "yield", "let", "static", "implements", "interface", "package", "private",
      "protected", "public", "await", "arguments", "eval", "undefined", "nan", "infinity" ]

/-- Whether `s` is reserved, in any ASCII case. -/
def isReserved (s : Text) : Bool :=
  table.contains (s.map Char.toLower)

end BanglaSource.Reserved
