-- SUMMARY: Code-point ranges of the character classes, which classes exclude each other, and characters among others.
import BanglaSource.Text.Blank
import BanglaSource.Script
import BanglaSource.Token.Literal

/-!
# Character classes

Each class is a set of code-point ranges. Once a class is written as ranges,
every inclusion and every disjointness between classes is linear arithmetic on
one number. Where a run of characters ends is decided by the first character that
lies outside their class.
-/
namespace BanglaSource

/-! ## Ranges -/

theorem isAlpha_iff (c : Char) :
    c.isAlpha = true ↔ (65 ≤ c.toNat ∧ c.toNat ≤ 90) ∨ (97 ≤ c.toNat ∧ c.toNat ≤ 122) := by
  have halpha : c.isAlpha = (decide ('A'.val ≤ c.val ∧ c.val ≤ 'Z'.val) ||
      (decide ('a'.val ≤ c.val) && decide (c.val ≤ 'z'.val))) := rfl
  simp [halpha, UInt32.le_iff_toNat_le]

theorem isDigit_iff (c : Char) : c.isDigit = true ↔ 48 ≤ c.toNat ∧ c.toNat ≤ 57 := by
  simp [Char.isDigit, UInt32.le_iff_toNat_le]

theorem isBlank_iff (c : Char) :
    isBlank c = true ↔
      (9 ≤ c.toNat ∧ c.toNat ≤ 13) ∨ c.toNat = 32 ∨ c.toNat = 133 ∨ c.toNat = 160 ∨
      c.toNat = 5760 ∨ (8192 ≤ c.toNat ∧ c.toNat ≤ 8202) ∨ c.toNat = 8232 ∨ c.toNat = 8233 ∨
      c.toNat = 8239 ∨ c.toNat = 8287 ∨ c.toNat = 12288 := by
  simp only [isBlank, Bool.or_eq_true, Bool.and_eq_true, decide_eq_true_eq, beq_iff_eq]
  omega

namespace Script

theorem isAnyDigit_iff (c : Char) :
    isAnyDigit c = true ↔
      (48 ≤ c.toNat ∧ c.toNat ≤ 57) ∨ (2534 ≤ c.toNat ∧ c.toNat ≤ 2543) := by
  simp only [isAnyDigit, isBanglaDigit, isDigit_iff, Bool.or_eq_true, Bool.and_eq_true,
    decide_eq_true_eq]

theorem isWordStart_iff (c : Char) :
    isWordStart c = true ↔
      (65 ≤ c.toNat ∧ c.toNat ≤ 90) ∨ (97 ≤ c.toNat ∧ c.toNat ≤ 122) ∨ c.toNat = 95 ∨
      c.toNat = 36 ∨ (2432 ≤ c.toNat ∧ c.toNat ≤ 2533) ∨ (2544 ≤ c.toNat ∧ c.toNat ≤ 2559) := by
  simp only [isWordStart, isBangla, isBanglaDigit, isAlpha_iff, ← Char.toNat_inj, beq_iff_eq,
    Bool.or_eq_true, Bool.and_eq_true, Bool.not_eq_true', Bool.and_eq_false_iff,
    decide_eq_true_eq, decide_eq_false_iff_not, Char.reduceToNat]
  omega

theorem isWordContinue_iff (c : Char) :
    isWordContinue c = true ↔
      (48 ≤ c.toNat ∧ c.toNat ≤ 57) ∨ (65 ≤ c.toNat ∧ c.toNat ≤ 90) ∨
      (97 ≤ c.toNat ∧ c.toNat ≤ 122) ∨ c.toNat = 95 ∨ c.toNat = 36 ∨
      (2432 ≤ c.toNat ∧ c.toNat ≤ 2559) ∨ c.toNat = 8204 ∨ c.toNat = 8205 := by
  simp only [isWordContinue, isJoiner, isWordStart_iff, isAnyDigit_iff, Bool.or_eq_true,
    beq_iff_eq]
  omega

/-! ## Inclusions and disjointness -/

theorem isWordContinue_of_isWordStart {c : Char} (h : isWordStart c = true) :
    isWordContinue c = true := by
  simp [isWordContinue, h]

theorem isWordContinue_of_isAnyDigit {c : Char} (h : isAnyDigit c = true) :
    isWordContinue c = true := by
  simp [isWordContinue, h]

theorem isAnyDigit_of_isDigit {c : Char} (h : c.isDigit = true) : isAnyDigit c = true := by
  simp [isAnyDigit, h]

theorem not_isAnyDigit_of_isWordStart {c : Char} (h : isWordStart c = true) :
    isAnyDigit c = false := by
  rw [← Bool.not_eq_true, isAnyDigit_iff]
  rw [isWordStart_iff] at h
  omega

theorem not_isBlank_of_isWordContinue {c : Char} (h : isWordContinue c = true) :
    isBlank c = false := by
  rw [← Bool.not_eq_true, isBlank_iff]
  rw [isWordContinue_iff] at h
  omega

theorem not_isWordContinue_of_isBlank {c : Char} (h : isBlank c = true) :
    isWordContinue c = false := by
  rw [← Bool.not_eq_true]
  intro hc
  rw [not_isBlank_of_isWordContinue hc] at h
  cases h

/-- A character of a word differs from every character outside the class, such as
    a quote or a slash. -/
theorem ne_of_isWordContinue {c d : Char} (h : isWordContinue c = true)
    (hd : isWordContinue d = false) : c ≠ d := by
  rintro rfl
  rw [h] at hd
  cases hd

theorem not_isQuote_of_isWordContinue {c : Char} (h : isWordContinue c = true) :
    Literal.isQuote c = false := by
  simp only [Literal.isQuote, Bool.or_eq_false_iff, beq_eq_false_iff_ne]
  exact ⟨⟨ne_of_isWordContinue h (by decide), ne_of_isWordContinue h (by decide)⟩,
    ne_of_isWordContinue h (by decide)⟩

end Script

theorem not_isQuote_of_isBlank {c : Char} (h : isBlank c = true) : Literal.isQuote c = false := by
  rw [← Bool.not_eq_true]
  intro hq
  simp only [Literal.isQuote, Bool.or_eq_true, beq_iff_eq] at hq
  rcases hq with (rfl | rfl) | rfl <;> revert h <;> decide

theorem ne_of_isBlank {c d : Char} (h : isBlank c = true) (hd : isBlank d = false) : c ≠ d := by
  rintro rfl
  rw [h] at hd
  cases hd

/-! ## First characters -/

/-- The first character of a text, if there is one, lies outside the class `p`. -/
def Text.Avoids (p : Char → Bool) (s : Text) : Prop :=
  ∀ c ∈ s.head?, p c = false

namespace Text

@[simp] theorem avoids_nil (p : Char → Bool) : Avoids p [] := by
  simp [Avoids]

@[simp] theorem avoids_cons (p : Char → Bool) (c : Char) (s : Text) :
    Avoids p (c :: s) ↔ p c = false := by
  simp [Avoids]

theorem avoids_append {p : Char → Bool} {s t : Text} (h : s ≠ []) :
    Avoids p (s ++ t) ↔ Avoids p s := by
  cases s with
  | nil => exact absurd rfl h
  | cons c s => simp

theorem avoids_dropWhile (p : Char → Bool) (s : Text) : Avoids p (s.dropWhile p) := by
  intro c hc
  have h := List.head?_dropWhile_not p s
  rw [Option.mem_def.1 hc] at h
  exact h

theorem takeWhile_of_avoids {p : Char → Bool} {s : Text} (h : Avoids p s) :
    s.takeWhile p = [] := by
  cases s with
  | nil => rfl
  | cons c s => simp_all

theorem dropWhile_of_avoids {p : Char → Bool} {s : Text} (h : Avoids p s) :
    s.dropWhile p = s := by
  cases s with
  | nil => rfl
  | cons c s => simp_all

/-- A run of characters of a class ends where the next character lies outside it. -/
theorem takeWhile_append_of_avoids {p : Char → Bool} {s rest : Text} (hs : ∀ c ∈ s, p c = true)
    (hrest : Avoids p rest) : (s ++ rest).takeWhile p = s := by
  rw [List.takeWhile_append_of_pos hs, takeWhile_of_avoids hrest, List.append_nil]

theorem dropWhile_append_of_avoids {p : Char → Bool} {s rest : Text} (hs : ∀ c ∈ s, p c = true)
    (hrest : Avoids p rest) : (s ++ rest).dropWhile p = rest := by
  rw [List.dropWhile_append_of_pos hs, dropWhile_of_avoids hrest]

end Text

/-! ## Pieces -/

/-- A character of a text made of pieces stands in one of the pieces. -/
theorem exists_piece_of_flatMap {α β : Type} {piece : α → List β} {xs : List α}
    {before after : List β} {c : β} (h : xs.flatMap piece = before ++ c :: after) :
    ∃ ys x zs inside rest, xs = ys ++ x :: zs ∧ piece x = inside ++ c :: rest ∧
      before = ys.flatMap piece ++ inside ∧ after = rest ++ zs.flatMap piece := by
  induction xs generalizing before with
  | nil => simp at h
  | cons x xs ih =>
    have hlater : ∀ skipped, before = piece x ++ skipped →
        xs.flatMap piece = skipped ++ c :: after →
        ∃ ys y zs inside rest, x :: xs = ys ++ y :: zs ∧ piece y = inside ++ c :: rest ∧
          before = ys.flatMap piece ++ inside ∧ after = rest ++ zs.flatMap piece := by
      intro skipped hbefore hrest
      obtain ⟨ys, y, zs, inside, rest, rfl, hpiece, rfl, hafter⟩ := ih hrest
      exact ⟨x :: ys, y, zs, inside, rest, rfl, hpiece, by simp [hbefore], hafter⟩
    rw [List.flatMap_cons, List.append_eq_append_iff] at h
    rcases h with ⟨skipped, hbefore, hrest⟩ | ⟨tail, hpiece, hrest⟩
    · exact hlater skipped hbefore hrest
    · cases tail with
      | nil => exact hlater [] (by simpa using hpiece.symm) hrest.symm
      | cons d tail =>
        rw [List.cons_append, List.cons.injEq] at hrest
        obtain ⟨rfl, hafter⟩ := hrest
        exact ⟨[], x, xs, before, tail, rfl, hpiece, rfl, hafter⟩

end BanglaSource
