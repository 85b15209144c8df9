-- SUMMARY: The canonical spelling is a normal form, and two texts have the same one if they are spelled out alike.
import BanglaSource.Proofs.Characters
import BanglaSource.Script.Canonical
import Mathlib.Data.List.Chain

/-!
# Canonical spelling

`fold` works on pairs of adjacent characters, `expand` on one character at a
time. What is to be shown of `fold` is shown of `expand` wherever possible,
because `expand` distributes over every way to cut a text, and is carried over
with the three laws that tie the two: folding does not change what a text expands
to, expanding does not change what it folds to, and a folded text has nothing
left to fold.
-/
namespace BanglaSource.Script

/-! ## Pairs -/

/-- The letters with two spellings: two characters, and the single one. -/
def pairs : List (Char × Char × Char) :=
  [ ('\u09a1', '\u09bc', '\u09dc'), ('\u09a2', '\u09bc', '\u09dd'), ('\u09af', '\u09bc', '\u09df'),
    ('\u09c7', '\u09be', '\u09cb'), ('\u09c7', '\u09d7', '\u09cc') ]

theorem compose?_eq_some {a b c : Char} (h : compose? a b = some c) : (a, b, c) ∈ pairs := by
  unfold compose? at h
  split at h <;> cases h <;> decide

/-- No character of a pair, and no letter that a pair spells, takes part in
    another pair, except as the same half. -/
theorem pairs_apart : ∀ p ∈ pairs, ∀ q ∈ pairs,
    p.2.1 ≠ q.1 ∧ p.2.2 ≠ q.1 ∧ p.2.2 ≠ q.2.1 := by
  decide

variable {a b c : Char}

theorem compose?_eq_none {a b : Char} (h : ∀ c, (a, b, c) ∉ pairs) : compose? a b = none := by
  cases hcompose : compose? a b with
  | none => rfl
  | some c => exact absurd (compose?_eq_some hcompose) (h c)

theorem compose?_first (h : compose? a b = some c) (d : Char) : compose? d a = none :=
  compose?_eq_none fun _ hmem => (pairs_apart _ hmem _ (compose?_eq_some h)).1 rfl

theorem compose?_letter_left (h : compose? a b = some c) (d : Char) : compose? c d = none :=
  compose?_eq_none fun _ hmem => (pairs_apart _ (compose?_eq_some h) _ hmem).2.1 rfl

theorem compose?_letter_right (h : compose? a b = some c) (d : Char) : compose? d c = none :=
  compose?_eq_none fun _ hmem => (pairs_apart _ (compose?_eq_some h) _ hmem).2.2 rfl

/-! ## Expanding -/

theorem decompose_compose? (h : compose? a b = some c) :
    decompose c = [a, b] ∧ decompose a = [a] ∧ decompose b = [b] := by
  have hpairs : ∀ p ∈ pairs,
      decompose p.2.2 = [p.1, p.2.1] ∧ decompose p.1 = [p.1] ∧ decompose p.2.1 = [p.2.1] := by
    decide
  exact hpairs _ (compose?_eq_some h)

theorem decompose_cases (c : Char) :
    decompose c = [c] ∨ ∃ a b, compose? a b = some c ∧ decompose c = [a, b] := by
  unfold decompose
  split
  iterate 5 exact .inr ⟨_, _, rfl, rfl⟩
  · exact .inl rfl

@[simp] theorem expand_nil : expand [] = [] := rfl

@[simp] theorem expand_cons (c : Char) (s : Text) : expand (c :: s) = decompose c ++ expand s :=
  rfl

@[simp] theorem expand_append (s t : Text) : expand (s ++ t) = expand s ++ expand t :=
  List.flatMap_append

theorem expand_fold (s : Text) : expand (fold s) = expand s := by
  fun_induction fold s with
  | case1 a b s c hcompose ih =>
    obtain ⟨hc, ha, hb⟩ := decompose_compose? hcompose
    simp [hc, ha, hb, ih]
  | case2 a b s hcompose ih => simp [ih]
  | case3 s _ => rfl

/-! ## Folding -/

theorem eq_nil_or_singleton {s : Text} (h : ∀ a b t, s = a :: b :: t → False) :
    s = [] ∨ ∃ a, s = [a] := by
  cases s with
  | nil => exact .inl rfl
  | cons a s =>
    cases s with
    | nil => exact .inr ⟨a, rfl⟩
    | cons b s => exact absurd rfl (h a b s)

theorem fold_cons_of_none (h : compose? a b = none) (s : Text) :
    fold (a :: b :: s) = a :: fold (b :: s) := by
  rw [fold, h]

theorem fold_cons_of_some (h : compose? a b = some c) (s : Text) :
    fold (a :: b :: s) = c :: fold s := by
  rw [fold, h]

theorem fold_expand (s : Text) : fold (expand s) = fold s := by
  -- The text in front of which a pair is spelled out is one or two characters shorter.
  fun_induction fold s with
  | case1 a b s c hcompose ih =>
    obtain ⟨-, ha, hb⟩ := decompose_compose? hcompose
    simp [ha, hb, fold_cons_of_some hcompose, ih]
  | case2 a b s hcompose ih =>
    rcases decompose_cases a with ha | ⟨x, y, hxy, ha⟩
    · rw [expand_cons, ha, List.singleton_append, ← ih]
      rcases decompose_cases b with hb | ⟨x, y, hxy, hb⟩
      · simp [hb, fold_cons_of_none hcompose]
      · simp [hb, fold_cons_of_none (compose?_first hxy a)]
    · rw [expand_cons, ha, ← ih]
      exact fold_cons_of_some hxy _
  | case3 s hs =>
    rcases eq_nil_or_singleton hs with rfl | ⟨a, rfl⟩
    · rfl
    · rcases decompose_cases a with ha | ⟨x, y, hxy, ha⟩
      · simp [ha, fold]
      · simp [ha, fold_cons_of_some hxy, fold]

/-! ## Canonical texts -/

/-- Whether no two adjacent characters spell one letter. -/
def IsCanonical (s : Text) : Prop :=
  s.IsChain fun a b => compose? a b = none

/-- The pairs that are looked for are those that are folded. -/
theorem completes_some (a b : Char) : completes (some a) b = (compose? a b).isSome := by
  unfold completes compose?
  split <;> split <;> simp_all

theorem needsFoldingBehind_eq_false_iff (a : Char) (s : Text) :
    needsFoldingBehind (some a) s = false ↔ IsCanonical (a :: s) := by
  induction s generalizing a with
  | nil => simp [needsFoldingBehind, IsCanonical]
  | cons b s ih =>
    rw [needsFoldingBehind, Bool.or_eq_false_iff, completes_some, Option.isSome_eq_false_iff,
      Option.isNone_iff_eq_none, ih, IsCanonical, IsCanonical, List.isChain_cons_cons]

theorem needsFolding_eq_false_iff (s : Text) : needsFolding s = false ↔ IsCanonical s := by
  cases s with
  | nil => simp [needsFolding, needsFoldingBehind, IsCanonical]
  | cons a s => exact needsFoldingBehind_eq_false_iff a s

theorem fold_of_isCanonical {s : Text} (h : IsCanonical s) : fold s = s := by
  induction s with
  | nil => rfl
  | cons a s ih =>
    cases s with
    | nil => rfl
    | cons b s =>
      obtain ⟨hab, hs⟩ := List.isChain_cons_cons.1 h
      rw [fold_cons_of_none hab, ih hs]

/-- The shortcut for texts with nothing to fold gives what folding gives. -/
theorem canonicalize_eq_fold (s : Text) : canonicalize s = fold s := by
  unfold canonicalize
  split
  · rfl
  · next h =>
    exact (fold_of_isCanonical ((needsFolding_eq_false_iff s).1 (by simpa using h))).symm

theorem isCanonical_fold (s : Text) : IsCanonical (fold s) := by
  -- A folded text starts with the first character or with the letter of a pair, and
  -- a letter of a pair follows no character as its second half.
  have hhead : ∀ b s a, compose? a b = none → ∀ d ∈ (fold (b :: s)).head?, compose? a d = none := by
    intro b s a hab d hd
    cases s with
    | nil => cases hd; exact hab
    | cons x s =>
      cases hcompose : compose? b x with
      | none => rw [fold_cons_of_none hcompose] at hd; cases hd; exact hab
      | some c =>
        rw [fold_cons_of_some hcompose] at hd
        cases hd
        exact compose?_letter_right hcompose a
  fun_induction fold s with
  | case1 a b s c hcompose ih =>
    exact List.isChain_cons.2 ⟨fun d _ => compose?_letter_left hcompose d, ih⟩
  | case2 a b s hcompose ih => exact List.isChain_cons.2 ⟨hhead b s a hcompose, ih⟩
  | case3 s hs =>
    rcases eq_nil_or_singleton hs with rfl | ⟨a, rfl⟩
    · exact .nil
    · exact .singleton a

theorem isCanonical_canonicalize (s : Text) : IsCanonical (canonicalize s) := by
  rw [canonicalize_eq_fold]
  exact isCanonical_fold s

theorem canonicalize_of_isCanonical {s : Text} (h : IsCanonical s) : canonicalize s = s := by
  rw [canonicalize_eq_fold, fold_of_isCanonical h]

@[simp] theorem canonicalize_canonicalize (s : Text) :
    canonicalize (canonicalize s) = canonicalize s :=
  canonicalize_of_isCanonical (isCanonical_canonicalize s)

@[simp] theorem expand_canonicalize (s : Text) : expand (canonicalize s) = expand s := by
  rw [canonicalize_eq_fold, expand_fold]

@[simp] theorem canonicalize_expand (s : Text) : canonicalize (expand s) = canonicalize s := by
  rw [canonicalize_eq_fold, canonicalize_eq_fold, fold_expand]

/-- Folding leaves exactly the texts as they are that are not sent to it. -/
theorem fold_eq_self_iff (s : Text) : fold s = s ↔ needsFolding s = false := by
  rw [needsFolding_eq_false_iff]
  constructor
  · intro h
    rw [← h]
    exact isCanonical_fold s
  · exact fold_of_isCanonical

theorem canonicalize_eq_canonicalize_iff (s t : Text) :
    canonicalize s = canonicalize t ↔ expand s = expand t := by
  constructor
  · intro h
    rw [← expand_canonicalize s, h, expand_canonicalize]
  · intro h
    rw [← canonicalize_expand s, h, canonicalize_expand]

/-- Two texts have the same canonical spelling exactly if they are the same when spelled
    out. The canonical spelling is its own, two adjacent characters of it never spell one
    letter, and it is what folding gives, also where folding is skipped. It is skipped
    exactly where it would change nothing. -/
theorem canonicalize_complete_invariant (s t : Text) :
    (canonicalize s = canonicalize t ↔ expand s = expand t) ∧
    canonicalize (canonicalize s) = canonicalize s ∧
    IsCanonical (canonicalize s) ∧
    canonicalize s = fold s ∧
    (needsFolding s = false ↔ fold s = s) :=
  ⟨canonicalize_eq_canonicalize_iff s t, canonicalize_canonicalize s, isCanonical_canonicalize s,
    canonicalize_eq_fold s, (fold_eq_self_iff s).symm⟩

-- The vowel sign in front has two partners, of which the nearer one is taken.
example : canonicalize ['\u09c7', '\u09be', '\u09d7'] = ['\u09cb', '\u09d7'] := by decide

/-! ## Texts without Bangla characters -/

theorem isBangla_of_compose? (h : compose? a b = some c) :
    isBangla a = true ∧ isBangla b = true ∧ isBangla c = true := by
  have hpairs : ∀ p ∈ pairs, isBangla p.1 = true ∧ isBangla p.2.1 = true ∧ isBangla p.2.2 = true := by
    decide
  exact hpairs _ (compose?_eq_some h)

theorem hasBangla_fold (s : Text) : hasBangla (fold s) = hasBangla s := by
  fun_induction fold s with
  | case1 a b s c hcompose ih =>
    obtain ⟨ha, -, hc⟩ := isBangla_of_compose? hcompose
    simp [hasBangla, ha, hc]
  | case2 a b s hcompose ih => simp only [hasBangla, List.any_cons] at ih ⊢; rw [ih]
  | case3 s _ => rfl

theorem hasBangla_canonicalize (s : Text) : hasBangla (canonicalize s) = hasBangla s := by
  rw [canonicalize_eq_fold, hasBangla_fold]

/-- A text without Bangla characters is canonical. -/
theorem isCanonical_of_not_hasBangla {s : Text} (h : hasBangla s = false) : IsCanonical s := by
  rw [hasBangla, List.any_eq_false] at h
  refine (List.pairwise_of_forall_mem_list fun a ha b _ => ?_).isChain
  cases hcompose : compose? a b with
  | none => rfl
  | some c => exact absurd (isBangla_of_compose? hcompose).1 (h a ha)

theorem canonicalize_of_not_hasBangla {s : Text} (h : hasBangla s = false) : canonicalize s = s :=
  canonicalize_of_isCanonical (isCanonical_of_not_hasBangla h)

end BanglaSource.Script
