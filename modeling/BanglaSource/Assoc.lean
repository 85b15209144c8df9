-- SUMMARY: Finite maps with text keys, as lists of pairs sorted by key.
import BanglaSource.Text

/-!
# Keyed lists

Directories, memory entries and JSON objects are finite maps whose keys are
texts. Insertion keeps the keys in code-point order, which is also the order of
their UTF-8 encodings.
-/
namespace BanglaSource

/-- A finite map with text keys. -/
abbrev Assoc (α : Type) := List (Text × α)

namespace Assoc

variable {α : Type}

/-- The value under a key. -/
def find? (key : Text) : Assoc α → Option α
  | [] => none
  | (k, v) :: m => if k = key then some v else find? key m

def contains (key : Text) (m : Assoc α) : Bool :=
  (find? key m).isSome

/-- Sets the value under a key. -/
def insert (key : Text) (value : α) : Assoc α → Assoc α
  | [] => [(key, value)]
  | (k, v) :: m =>
    if k = key then (key, value) :: m
    else if key < k then (key, value) :: (k, v) :: m
    else (k, v) :: insert key value m

/-- Removes a key. -/
def erase (key : Text) (m : Assoc α) : Assoc α :=
  m.filter fun (k, _) => k != key

def keys (m : Assoc α) : List Text :=
  m.map (·.1)

@[simp] theorem find?_nil (key : Text) : find? key ([] : Assoc α) = none := rfl

theorem mem_keys_iff {key : Text} {m : Assoc α} : key ∈ keys m ↔ (find? key m).isSome = true := by
  induction m with
  | nil => simp [keys]
  | cons p m ih =>
    by_cases hkey : p.1 = key
    · simp [keys, find?, hkey]
    · simpa [keys, find?, hkey, Ne.symm hkey] using ih

theorem find?_insert (key key' : Text) (value : α) (m : Assoc α) :
    find? key' (insert key value m) = if key = key' then some value else find? key' m := by
  induction m with
  | nil => simp [insert, find?]
  | cons p m ih =>
    obtain ⟨k, v⟩ := p
    simp only [insert]
    split
    · next h => subst h; simp only [find?]; split <;> rfl
    · split
      · simp only [find?]
      · next h _ =>
        simp only [find?, ih]
        split
        · next hk => subst hk; simp [Ne.symm h]
        · rfl

theorem find?_erase (key key' : Text) (m : Assoc α) :
    find? key' (erase key m) = if key = key' then none else find? key' m := by
  induction m with
  | nil => simp [erase]
  | cons p m ih =>
    obtain ⟨k, v⟩ := p
    simp only [erase] at ih
    by_cases h : k = key
    · subst h
      simp only [erase, List.filter_cons, bne_self_eq_false, Bool.false_eq_true, if_false, ih, find?]
      split <;> rfl
    · simp only [erase, List.filter_cons, bne_iff_ne, ne_eq, h, not_false_eq_true, if_true, find?,
        ih]
      split
      · next hk => subst hk; simp [Ne.symm h]
      · rfl

end Assoc
end BanglaSource
