-- SUMMARY: Compact JSON text of a value, without spaces and with the fewest escapes.
import BanglaSource.Decimal
import BanglaSource.Json

/-!
# JSON text

Text is written without spaces. A string escapes the quote, the backslash and
the control characters below U+0020, five of them with a letter, and nothing
else. A floating-point number is written with its shortest digits.
-/
namespace BanglaSource.Json

-- ---------------------------------------------------------------------------
-- Strings
-- ---------------------------------------------------------------------------

/-- The text that stands for one character in a string. -/
def escape (c : Char) : Text :=
  match c with
  | '\x22' => ['\\', '\x22']
  | '\\' => ['\\', '\\']
  | '\x08' => ['\\', 'b']
  | '\x0c' => ['\\', 'f']
  | '\n' => ['\\', 'n']
  | '\r' => ['\\', 'r']
  | '\t' => ['\\', 't']
  | c =>
    if c.toNat < 0x20 then
      ['\\', 'u', '0', '0', Nat.digitChar (c.toNat / 16), Nat.digitChar (c.toNat % 16)]
    else [c]

/-- A text between quotes. -/
def quote (s : Text) : Text :=
  '\x22' :: s.flatMap escape ++ ['\x22']

-- ---------------------------------------------------------------------------
-- Numbers
-- ---------------------------------------------------------------------------

def printInt : Int → Text
  | .ofNat n => Text.ofNat n
  | .negSucc n => '-' :: Text.ofNat (n + 1)

/-- The exponent of a decimal. Its sign is always written. -/
def printExponent : Int → Text
  | .ofNat n => 'e' :: '+' :: Text.ofNat n
  | .negSucc n => 'e' :: '-' :: Text.ofNat (n + 1)

/-- A decimal in positional notation if its first digit has a place from
    `10 ^ -5` up to `10 ^ 15`, and otherwise with an exponent. Whole values keep
    `.0`. -/
def printDecimal (d : Decimal.Shortest) : Text :=
  let digits := Text.ofNat d.digits
  let point := digits.length + d.exponent
  if 0 ≤ d.exponent && point ≤ 16 then
    digits ++ List.replicate d.exponent.toNat '0' ++ ['.', '0']
  else if 0 < point && point ≤ 16 then
    digits.take point.toNat ++ '.' :: digits.drop point.toNat
  else if -5 < point && point ≤ 0 then
    '0' :: '.' :: List.replicate (-point).toNat '0' ++ digits
  else
    let fraction := match digits.drop 1 with
      | [] => []
      | more => '.' :: more
    digits.take 1 ++ fraction ++ printExponent (point - 1)

/-- A finite double, given by its bits. -/
def printFloat (bits : UInt64) : Text :=
  let magnitude := bits.toNat % 0x8000000000000000
  let sign : Text := if bits.toNat < 0x8000000000000000 then [] else ['-']
  if magnitude = 0 then sign ++ ['0', '.', '0']
  else sign ++ printDecimal (Decimal.shortest (.ofBits magnitude))

def printNumber : Number → Text
  | .int n => printInt n
  | .float bits => printFloat bits

-- ---------------------------------------------------------------------------
-- Values
-- ---------------------------------------------------------------------------

mutual
/-- The compact text of a value, with fields in the order in which they stand. -/
def print : Json → Text
  | .null => ['n', 'u', 'l', 'l']
  | .bool true => ['t', 'r', 'u', 'e']
  | .bool false => ['f', 'a', 'l', 's', 'e']
  | .num n => printNumber n
  | .str s => quote s
  | .arr [] => ['[', ']']
  | .arr (v :: vs) => '[' :: print v ++ printItems vs
  | .obj [] => ['\x7b', '\x7d']
  | .obj ((key, v) :: fields) => '\x7b' :: quote key ++ ':' :: print v ++ printFields fields

/-- The items after the first one, with the closing bracket. -/
def printItems : List Json → Text
  | [] => [']']
  | v :: vs => ',' :: print v ++ printItems vs

/-- The fields after the first one, with the closing brace. -/
def printFields : Assoc Json → Text
  | [] => ['\x7d']
  | (key, v) :: fields => ',' :: quote key ++ ':' :: print v ++ printFields fields
end

end BanglaSource.Json
