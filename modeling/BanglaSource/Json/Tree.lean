-- SUMMARY: JSON text read as a tree of literals, before numbers and strings are given their meaning.
import BanglaSource.Json.Numeral

/-!
# JSON trees

Reading goes in two steps. A tree holds the text as it is written: numerals that
may be out of range, strings that may hold half of a surrogate pair, objects
nested to any depth. The value of a tree exists only if all its parts have one
and it is not nested too deeply. Parts of a text that nobody asks for need to be
trees, not values.
-/
namespace BanglaSource.Json

/-- JSON text as it is written. -/
inductive Tree where
  | null
  | bool (value : Bool)
  | num (value : Numeral)
  /-- The text of a string, or none if it holds half of a surrogate pair. -/
  | str (value : Option Text)
  | arr (items : List Tree)
  | obj (fields : List (Option Text × Tree))
deriving Repr

namespace Tree

-- ---------------------------------------------------------------------------
-- Strings
-- ---------------------------------------------------------------------------

/-- What one character or escape of a string stands for. -/
inductive Unit where
  | char (c : Char)
  /-- A UTF-16 unit, written as four hexadecimal digits. -/
  | code (n : Nat)
deriving DecidableEq, Repr

def hexValue? (c : Char) : Option Nat :=
  if c.isDigit then some (c.toNat - '0'.toNat)
  else if 'a' ≤ c && c ≤ 'f' then some (c.toNat - 'a'.toNat + 10)
  else if 'A' ≤ c && c ≤ 'F' then some (c.toNat - 'A'.toNat + 10)
  else none

def hex4? (a b c d : Char) : Option Nat := do
  return ((← hexValue? a) * 16 + (← hexValue? b)) * 256 + (← hexValue? c) * 16 + (← hexValue? d)

/-- The character after a backslash, for escapes of one letter. -/
def unescape? (c : Char) : Option Char :=
  match c with
  | '\x22' => some '\x22'
  | '\\' => some '\\'
  | '/' => some '/'
  | 'b' => some '\x08'
  | 'f' => some '\x0c'
  | 'n' => some '\n'
  | 'r' => some '\r'
  | 't' => some '\t'
  | _ => none

/-- The units of a string up to its closing quote, and the rest of the text.
    Control characters below U+0020 cannot stand in a string. -/
def readUnits : Text → Option (List Unit × Text)
  | [] => none
  | '\x22' :: s => some ([], s)
  | '\\' :: 'u' :: a :: b :: c :: d :: s => do
    let n ← hex4? a b c d
    let (units, rest) ← readUnits s
    return (.code n :: units, rest)
  | '\\' :: c :: s => do
    let c ← unescape? c
    let (units, rest) ← readUnits s
    return (.char c :: units, rest)
  | c :: s =>
    if c.toNat < 0x20 then none
    else (readUnits s).map fun (units, rest) => (.char c :: units, rest)

def isHighSurrogate (n : Nat) : Bool := 0xD800 ≤ n && n ≤ 0xDBFF

def isLowSurrogate (n : Nat) : Bool := 0xDC00 ≤ n && n ≤ 0xDFFF

/-- The text of units. Surrogates count only as a high one directly followed by
    a low one. -/
def textOfUnits? : List Unit → Option Text
  | [] => some []
  | .char c :: us => (textOfUnits? us).map (c :: ·)
  | .code n :: .code m :: us =>
    if isHighSurrogate n then
      if isLowSurrogate m then
        (textOfUnits? us).map (Char.ofNat (0x10000 + (n - 0xD800) * 0x400 + (m - 0xDC00)) :: ·)
      else none
    else if isLowSurrogate n then none
    else (textOfUnits? (.code m :: us)).map (Char.ofNat n :: ·)
  | .code n :: us =>
    if isHighSurrogate n || isLowSurrogate n then none
    else (textOfUnits? us).map (Char.ofNat n :: ·)

/-- The rest of a string after its opening quote. -/
def readString (s : Text) : Option (Option Text × Text) :=
  (readUnits s).map fun (units, rest) => (textOfUnits? units, rest)

-- ---------------------------------------------------------------------------
-- Trees
-- ---------------------------------------------------------------------------

/-- Whether `c` may stand between the parts of a JSON text. -/
def isSpace (c : Char) : Bool :=
  c == ' ' || c == '\t' || c == '\n' || c == '\r'

def skipSpace (s : Text) : Text :=
  s.dropWhile isSpace

/-- A tree without parts, other than a string. -/
def readAtom (s : Text) : Option (Tree × Text) :=
  match s with
  | 'n' :: 'u' :: 'l' :: 'l' :: s => some (.null, s)
  | 't' :: 'r' :: 'u' :: 'e' :: s => some (.bool true, s)
  | 'f' :: 'a' :: 'l' :: 's' :: 'e' :: s => some (.bool false, s)
  | s => (Numeral.read s).map fun (n, s) => (.num n, s)

mutual
/-- A tree at the start of a text, and the rest. The number bounds the steps;
    two for each character are enough. -/
def read : Nat → Text → Option (Tree × Text)
  | 0, _ => none
  | n + 1, s =>
    match skipSpace s with
    | '[' :: s =>
      match skipSpace s with
      | ']' :: s => some (.arr [], s)
      | s => (readItems n s).map fun (items, s) => (.arr items, s)
    | '\x7b' :: s =>
      match skipSpace s with
      | '\x7d' :: s => some (.obj [], s)
      | s => (readFields n s).map fun (fields, s) => (.obj fields, s)
    | '\x22' :: s => (readString s).map fun (text, s) => (.str text, s)
    | s => readAtom s

/-- The items of an array up to its closing bracket. -/
def readItems : Nat → Text → Option (List Tree × Text)
  | 0, _ => none
  | n + 1, s => do
    let (item, s) ← read n s
    match skipSpace s with
    | ']' :: s => return ([item], s)
    | ',' :: s =>
      let (items, s) ← readItems n s
      return (item :: items, s)
    | _ => none

/-- The fields of an object up to its closing brace. -/
def readFields : Nat → Text → Option (List (Option Text × Tree) × Text)
  | 0, _ => none
  | n + 1, s =>
    match skipSpace s with
    | '\x22' :: s => do
      let (key, s) ← readString s
      match skipSpace s with
      | ':' :: s =>
        let (value, s) ← read n s
        match skipSpace s with
        | '\x7d' :: s => return ([(key, value)], s)
        | ',' :: s =>
          let (fields, s) ← readFields n s
          return ((key, value) :: fields, s)
        | _ => none
      | _ => none
    | _ => none
end

/-- The tree of a whole text, with spaces around it. -/
def parse? (s : Text) : Option Tree := do
  let (tree, rest) ← read (2 * s.length + 2) s
  if skipSpace rest = [] then some tree else none

-- ---------------------------------------------------------------------------
-- Values
-- ---------------------------------------------------------------------------

/-- How deeply arrays and objects may be nested in a text that is read. -/
def maxDepth : Nat := 127

mutual
/-- The value of a tree in which at most `depth` arrays and objects are nested. -/
def value? (depth : Nat) : Tree → Option Json
  | .null => some .null
  | .bool b => some (.bool b)
  | .num n => n.number?.map .num
  | .str s => s.map .str
  | .arr items =>
    match depth with
    | 0 => none
    | depth + 1 => (values? depth items).map .arr
  | .obj fields =>
    match depth with
    | 0 => none
    | depth + 1 => (fieldValues? depth fields).map .obj

def values? (depth : Nat) : List Tree → Option (List Json)
  | [] => some []
  | t :: ts => do
    let v ← value? depth t
    let vs ← values? depth ts
    return v :: vs

def fieldValues? (depth : Nat) : List (Option Text × Tree) → Option (List (Text × Json))
  | [] => some []
  | (key, t) :: fields => do
    let key ← key
    let v ← value? depth t
    let vs ← fieldValues? depth fields
    return (key, v) :: vs
end

end Tree
end BanglaSource.Json
