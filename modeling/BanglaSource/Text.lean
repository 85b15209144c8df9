-- SUMMARY: Texts as lists of Unicode scalar values, their lines, and their length and slices in UTF-8 bytes.

/-!
# Text

Source texts, token texts, file names and messages are lists of characters. A
string literal stands for its list of characters wherever a text is expected.
Byte offsets, which backends report and line indexes use, count the UTF-8
encoding.
-/
namespace BanglaSource

/-- A sequence of Unicode scalar values, never normalised. -/
abbrev Text := List Char

instance : Coe String Text := ⟨String.toList⟩

namespace Text

-- ---------------------------------------------------------------------------
-- Lines
-- ---------------------------------------------------------------------------

/-- The pieces between line feeds. A trailing line feed opens one more, empty,
    piece, so there is always at least one. -/
def lines (s : Text) : List Text :=
  s.splitOnP (· == '\n')

/-- The number of line feeds. -/
def lineFeeds (s : Text) : Nat :=
  s.count '\n'

@[simp] theorem lineFeeds_append (s t : Text) : lineFeeds (s ++ t) = lineFeeds s + lineFeeds t :=
  List.count_append

-- ---------------------------------------------------------------------------
-- Bytes
-- ---------------------------------------------------------------------------

/-- The length of the UTF-8 encoding. -/
def byteLength : Text → Nat
  | [] => 0
  | c :: s => c.utf8Size + byteLength s

/-- The characters that start at byte offset `n` or later. -/
def dropBytes : Nat → Text → Text
  | _, [] => []
  | n, c :: s => if n = 0 then c :: s else dropBytes (n - c.utf8Size) s

/-- The leading characters that start before byte offset `n`. -/
def takeBytes : Nat → Text → Text
  | _, [] => []
  | n, c :: s => if n = 0 then [] else c :: takeBytes (n - c.utf8Size) s

/-- The UTF-8 encoding. -/
def utf8 (s : Text) : ByteArray :=
  (String.ofList s).toUTF8

/-- The text that `bytes` encode, if they are valid UTF-8. -/
def ofUtf8? (bytes : ByteArray) : Option Text :=
  (String.fromUTF8? bytes).map String.toList

@[simp] theorem byteLength_append (s t : Text) :
    byteLength (s ++ t) = byteLength s + byteLength t := by
  induction s with
  | nil => simp [byteLength]
  | cons c s ih => simp only [List.cons_append, byteLength, ih]; omega

@[simp] theorem takeBytes_append_dropBytes (n : Nat) (s : Text) :
    takeBytes n s ++ dropBytes n s = s := by
  induction s generalizing n with
  | nil => rfl
  | cons c s ih => by_cases h : n = 0 <;> simp [takeBytes, dropBytes, h, ih]

-- ---------------------------------------------------------------------------
-- Search
-- ---------------------------------------------------------------------------

/-- The byte offset of the first occurrence of `needle`. The empty text occurs
    at the start of every text. -/
def find? (needle : Text) : Text → Option Nat
  | [] => if needle.isEmpty then some 0 else none
  | c :: s =>
    if needle.isPrefixOf (c :: s) then some 0
    else (find? needle s).map (c.utf8Size + ·)

-- ---------------------------------------------------------------------------
-- Numbers
-- ---------------------------------------------------------------------------

/-- The decimal digits of `n`, without leading zeros. -/
def ofNat (n : Nat) : Text :=
  Nat.toDigits 10 n

/-- The decimal digits of `n`, with zeros in front up to `width` digits. -/
def ofNatPadded (width n : Nat) : Text :=
  let digits := ofNat n
  List.replicate (width - digits.length) '0' ++ digits

end Text
end BanglaSource
