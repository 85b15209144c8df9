-- SUMMARY: The shortest decimal that reads back as a given double-precision number.

/-!
# Shortest decimals

A double-precision number stands for the interval of reals that round to it. Its
shortest decimal is the point of that interval that lies on the coarsest grid of
powers of ten, and of two such points the nearer one. All comparisons are made on
natural numbers.
-/
namespace BanglaSource.Decimal

/-- A positive number `mantissa · 2 ^ exponent`, with the double just below it
    half as far away as the one above if `narrow` is set. -/
structure Binary where
  mantissa : Nat
  exponent : Int
  narrow : Bool
deriving DecidableEq, Repr

/-- The magnitude of a finite double that is not zero, from its bits without the
    sign. -/
def Binary.ofBits (bits : Nat) : Binary :=
  let field := bits / 0x10000000000000
  let fraction := bits % 0x10000000000000
  if field = 0 then ⟨fraction, -1074, false⟩
  else ⟨0x10000000000000 + fraction, (field : Int) - 1075, fraction = 0 && field ≠ 1⟩

/-- A positive decimal `digits · 10 ^ exponent`. -/
structure Shortest where
  digits : Nat
  exponent : Int
deriving DecidableEq, Repr

/-- The multiple of `10 ^ grid` that reads back as `x` and is nearest to it, if
    there is one. A tie goes to the even multiple. -/
def onGrid? (x : Binary) (grid : Int) : Option Shortest :=
  -- The value and the ends of its interval in quarters of the last binary place.
  let value := 4 * x.mantissa
  let low := if x.narrow then value - 1 else value - 2
  let high := value + 2
  let closed := x.mantissa % 2 = 0
  -- All three scaled to units of `1 / unit` of the grid.
  let binary := x.exponent - 2
  let scale := Nat.pow 2 binary.toNat * Nat.pow 10 (-grid).toNat
  let unit := Nat.pow 2 (-binary).toNat * Nat.pow 10 grid.toNat
  let inside (n : Nat) : Bool :=
    if closed then low * scale ≤ n * unit && n * unit ≤ high * scale
    else low * scale < n * unit && n * unit < high * scale
  let below := value * scale / unit
  let above := below + 1
  let toBelow := value * scale - below * unit
  let toAbove := above * unit - value * scale
  let preferBelow := toBelow < toAbove || (toBelow = toAbove && below % 2 = 0)
  match inside below, inside above with
  | true, true => some ⟨if preferBelow then below else above, grid⟩
  | true, false => some ⟨below, grid⟩
  | false, true => some ⟨above, grid⟩
  | false, false => none

/-- The shortest decimal of a double. The grids from `10 ^ 309` down to
    `10 ^ -345` suffice, because the last one is finer than every interval. -/
def shortest (x : Binary) : Shortest :=
  ((List.range 655).findSome? fun (i : Nat) => onGrid? x (309 - (i : Int))).getD ⟨x.mantissa, 0⟩

end BanglaSource.Decimal
