-- SUMMARY: JSON values and their canonical form, in which object keys are sorted and unique.
import BanglaSource.Assoc

/-!
# JSON values

Whole numbers and floating-point numbers are kept apart: `1` and `1.0` are
different values. An object holds its fields in some order and may hold a key
twice; its canonical form has sorted keys and keeps the last field of each key.
-/
namespace BanglaSource

/-- A JSON number. -/
inductive Number where
  | int (value : Int)
  /-- A double-precision number, given by its bits. -/
  | float (bits : UInt64)
deriving DecidableEq, Repr

/-- A JSON value. -/
inductive Json where
  | null
  | bool (value : Bool)
  | num (value : Number)
  | str (value : Text)
  | arr (items : List Json)
  | obj (fields : List (Text × Json))
deriving Repr

namespace Json

/-- A whole number that is not negative. -/
def nat (n : Nat) : Json :=
  .num (.int n)

-- ---------------------------------------------------------------------------
-- Canonical form
-- ---------------------------------------------------------------------------

mutual
/-- Sorts the keys of every object. Of fields with one key the last counts. -/
def canonical : Json → Json
  | .arr items => .arr (canonicalItems items)
  | .obj fields => .obj (canonicalFields fields)
  | v => v

def canonicalItems : List Json → List Json
  | [] => []
  | v :: vs => canonical v :: canonicalItems vs

def canonicalFields : Assoc Json → Assoc Json
  | [] => []
  | (key, v) :: fields =>
    let rest := canonicalFields fields
    if Assoc.contains key rest then rest else Assoc.insert key (canonical v) rest
end

end Json
end BanglaSource
