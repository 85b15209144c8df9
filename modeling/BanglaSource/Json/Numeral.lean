-- SUMMARY: Number literals of JSON text and the numbers that they denote.
import BanglaSource.Json

/-!
# Numerals

A numeral without fraction and exponent denotes a whole number if it fits into
64 bits, signed or unsigned; minus zero does not. Every other numeral denotes a
double-precision number: the leading digits that fit into 64 bits, as a double,
multiplied or divided by a power of ten. Digits beyond those count as zeros. A
numeral beyond the largest double denotes nothing.
-/
namespace BanglaSource.Json

/-- A number as it is written. All digits are decimal and those of the fraction
    and of the exponent are not empty. -/
structure Numeral where
  negative : Bool
  whole : Text
  fraction : Option Text
  /-- The sign (set if negative) and the digits of the exponent. -/
  exponent : Option (Bool × Text)
deriving DecidableEq, Repr

namespace Numeral

-- ---------------------------------------------------------------------------
-- Reading
-- ---------------------------------------------------------------------------

/-- One digit or more at the start of a text, and the rest. -/
def readDigits (s : Text) : Option (Text × Text) :=
  match s.takeWhile Char.isDigit with
  | [] => none
  | digits => some (digits, s.dropWhile Char.isDigit)

/-- The whole part: a zero, or digits that do not start with one. -/
def readWhole (s : Text) : Option (Text × Text) :=
  match s with
  | '0' :: s => some (['0'], s)
  | s => readDigits s

/-- The digits after a point. -/
def readFraction (s : Text) : Option (Option Text × Text) :=
  match s with
  | '.' :: s => (readDigits s).map fun (digits, s) => (some digits, s)
  | s => some (none, s)

/-- The sign and the digits after an exponent mark. -/
def readExponent (s : Text) : Option (Option (Bool × Text) × Text) :=
  match s with
  | 'e' :: s | 'E' :: s =>
    let (negative, s) := match s with
      | '-' :: s => (true, s)
      | '+' :: s => (false, s)
      | s => (false, s)
    (readDigits s).map fun (digits, s) => (some (negative, digits), s)
  | s => some (none, s)

/-- A numeral at the start of a text, and the rest. -/
def read (s : Text) : Option (Numeral × Text) := do
  let (negative, s) := match s with
    | '-' :: s => (true, s)
    | s => (false, s)
  let (whole, s) ← readWhole s
  let (fraction, s) ← readFraction s
  let (exponent, s) ← readExponent s
  return (⟨negative, whole, fraction, exponent⟩, s)

-- ---------------------------------------------------------------------------
-- Meaning
-- ---------------------------------------------------------------------------

/-- Appends digits to a number as long as it fits into 64 bits. The second
    result is the number of digits left over. -/
def accumulate (n : Nat) : Text → Nat × Nat
  | [] => (n, 0)
  | c :: s =>
    let next := 10 * n + (c.toNat - '0'.toNat)
    if next < 0x10000000000000000 then accumulate next s else (n, s.length + 1)

/-- The double `10 ^ n`, for `n` up to 308. -/
def power (n : Nat) : Float :=
  Float.ofScientific 1 false n

/-- The double nearest to `significand`, scaled by `10 ^ exponent` in one
    operation, or in two below `10 ^ -308`. There is none beyond the largest
    double. -/
def scale? (significand : Nat) (exponent : Int) : Option Float :=
  let x := significand.toUInt64.toFloat
  if significand = 0 then some x
  else if 308 < exponent then none
  else if 0 ≤ exponent then
    let y := x * power exponent.toNat
    if y.isInf then none else some y
  else if -308 ≤ exponent then some (x / power (-exponent).toNat)
  else if -616 ≤ exponent then some (x / power 308 / power (-exponent - 308).toNat)
  else some 0.0

/-- The whole number with the given sign and magnitude, if it fits. -/
def int? (negative : Bool) (magnitude : Nat) : Option Int :=
  if negative then
    if magnitude = 0 || 0x8000000000000000 < magnitude then none else some (-magnitude)
  else some magnitude

/-- The number that a numeral denotes. -/
def number? (n : Numeral) : Option Number :=
  let (whole, extra) := accumulate 0 n.whole
  let float (significand : Nat) (exponent : Int) : Option Number :=
    (scale? significand exponent).map fun x =>
      .float (if n.negative then -x else x).toBits
  match n.fraction, n.exponent with
  | none, none =>
    match if extra = 0 then int? n.negative whole else none with
    | some i => some (.int i)
    | none => float whole extra
  | fraction, exponent =>
    let digits := fraction.getD []
    let (significand, dropped) := accumulate whole digits
    let start : Int := (extra : Int) - ((digits.length - dropped : Nat) : Int)
    match exponent with
    | none => float significand start
    | some (negative, digits) =>
      let exponent := Nat.ofDigitChars 10 digits 0
      float significand (if negative then start - exponent else start + exponent)

end Numeral
end BanglaSource.Json
