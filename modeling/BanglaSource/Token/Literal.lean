-- SUMMARY: Where string, comment and pattern literals end: each scanner cuts a text into the literal's part and the rest.
import BanglaSource.Text

/-!
# Literals

Each scanner gets the text that follows an opening delimiter and cuts it in two:
the part that still belongs to the literal, and the rest. A string or a block
comment that is never closed takes the whole text. A pattern that is never closed
on its line is no pattern at all.
-/
namespace BanglaSource.Literal

-- ---------------------------------------------------------------------------
-- Strings
-- ---------------------------------------------------------------------------

/-- The quotes that open and close a string. -/
def isQuote (c : Char) : Bool :=
  c == '\x22' || c == '\x27' || c == '\x60'

/-- Cuts after the first `quote` that no backslash escapes. -/
def closeString (quote : Char) : Text → Text × Text
  | [] => ([], [])
  | '\\' :: c :: s =>
    let (inside, rest) := closeString quote s
    ('\\' :: c :: inside, rest)
  | c :: s =>
    if c = quote then ([c], s)
    else
      let (inside, rest) := closeString quote s
      (c :: inside, rest)

-- ---------------------------------------------------------------------------
-- Block comments
-- ---------------------------------------------------------------------------

/-- Cuts after the first star that a slash follows. -/
def closeComment : Text → Text × Text
  | [] => ([], [])
  | '*' :: '/' :: s => (['*', '/'], s)
  | c :: s =>
    let (inside, rest) := closeComment s
    (c :: inside, rest)

-- ---------------------------------------------------------------------------
-- Patterns
-- ---------------------------------------------------------------------------

/-- The flags that may follow a pattern. -/
def isFlag (c : Char) : Bool :=
  ['d', 'g', 'i', 'm', 's', 'u', 'v', 'y'].contains c

/-- Whether `c` ends a line, which no pattern crosses. -/
def isLineEnd (c : Char) : Bool :=
  c == '\n' || c == '\r'

/-- Whether a class is open after the unescaped character `c`. -/
def classAfter (inClass : Bool) (c : Char) : Bool :=
  if c = '[' then true else if c = ']' then false else inClass

/-- Cuts after the first slash that stands outside escapes and outside classes
    in square brackets. There is none if the line or the text ends before. -/
def closeBody (inClass : Bool) : Text → Option (Text × Text)
  | [] => none
  | '\\' :: c :: s =>
    if isLineEnd c then none
    else (closeBody inClass s).map fun (inside, rest) => ('\\' :: c :: inside, rest)
  | c :: s =>
    if isLineEnd c then none
    else if c = '/' && !inClass then some ([c], s)
    else (closeBody (classAfter inClass c) s).map fun (inside, rest) => (c :: inside, rest)

/-- Cuts after the closing slash of a pattern and its flags. -/
def closePattern (s : Text) : Option (Text × Text) :=
  (closeBody false s).map fun (body, rest) =>
    (body ++ rest.takeWhile isFlag, rest.dropWhile isFlag)

-- ---------------------------------------------------------------------------
-- Nothing is lost
-- ---------------------------------------------------------------------------

theorem closeString_append (quote : Char) (s : Text) :
    (closeString quote s).1 ++ (closeString quote s).2 = s := by
  fun_induction closeString quote s <;> simp_all

theorem closeComment_append (s : Text) : (closeComment s).1 ++ (closeComment s).2 = s := by
  fun_induction closeComment s <;> simp_all

theorem closeBody_append {inClass : Bool} {s inside rest : Text}
    (h : closeBody inClass s = some (inside, rest)) : inside ++ rest = s := by
  fun_induction closeBody inClass s generalizing inside rest <;> grind [Option.map_eq_some_iff]

theorem closePattern_append {s inside rest : Text}
    (h : closePattern s = some (inside, rest)) : inside ++ rest = s := by
  simp only [closePattern, Option.map_eq_some_iff, Prod.exists, Prod.mk.injEq] at h
  obtain ⟨body, after, hbody, rfl, rfl⟩ := h
  simp [closeBody_append hbody]

end BanglaSource.Literal
