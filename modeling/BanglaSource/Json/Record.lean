-- SUMMARY: Reading typed data from JSON trees: bounded numbers, names, optional parts and records.
import BanglaSource.Json.Tree

/-!
# Records

A record is given as an object with named fields or as an array of its fields in
order. In an object unknown fields are ignored and a known field may stand only
once. Every reader takes a tree and gives nothing if the tree does not fit.
-/
namespace BanglaSource.Json.Tree

/-- A whole number of at most `bits` bits, written without fraction and exponent. -/
def nat? (bits : Nat) : Tree → Option Nat
  | .num n =>
    match n.number? with
    | some (.int (.ofNat value)) => if value < Nat.pow 2 bits then some value else none
    | _ => none
  | _ => none

def bool? : Tree → Option Bool
  | .bool b => some b
  | _ => none

def text? : Tree → Option Text
  | .str s => s
  | _ => none

/-- A part that may be null. -/
def nullable? {α : Type} (read : Tree → Option α) : Tree → Option (Option α)
  | .null => some none
  | t => (read t).map some

/-- A free JSON value in canonical form, nested at most `depth` deep. -/
def free? (depth : Nat) (t : Tree) : Option Json :=
  (t.value? depth).map Json.canonical

/-- One of several named things: its name, or an object whose only field has
    that name and is null. -/
def oneOf? {α : Type} (all : List α) (name : α → Text) : Tree → Option α
  | .str (some s) => all.find? (name · = s)
  | .obj [(some s, .null)] => all.find? (name · = s)
  | _ => none

/-- All items of an array. -/
def list? {α : Type} (read : Tree → Option α) : Tree → Option (List α)
  | .arr items => items.mapM read
  | _ => none

-- ---------------------------------------------------------------------------
-- Fields
-- ---------------------------------------------------------------------------

/-- The fields of an object whose keys are texts. -/
def keyed? (fields : List (Option Text × Tree)) : Option (Assoc Tree) :=
  fields.mapM fun (key, t) => key.map (·, t)

/-- The only field with the given name, or nothing if there is none. Two fields
    of one name cannot be read. -/
def unique? (fields : Assoc Tree) (name : Text) : Option (Option Tree) :=
  match fields.filter (·.1 = name) with
  | [] => some none
  | [(_, t)] => some (some t)
  | _ => none

/-- The parts of a record, one for each name. An array gives them in order and
    may leave off as many at the end as `spare` says. -/
def parts? (names : List Text) (spare : Nat) : Tree → Option (List (Option Tree))
  | .obj fields => do
    let fields ← keyed? fields
    names.mapM (unique? fields)
  | .arr items =>
    if items.length ≤ names.length && names.length ≤ items.length + spare then
      some (items.map some ++ List.replicate (names.length - items.length) none)
    else none
  | _ => none

end BanglaSource.Json.Tree
