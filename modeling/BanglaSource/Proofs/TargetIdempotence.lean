-- SUMMARY: Target text that is cut along the pieces of its source is its own target text.
import BanglaSource.Proofs.TargetAlphabet

/-!
# Target text of target text

A text without Bangla characters has nothing to rewrite. The pieces that are made
for keywords, names and numbers are such texts; the other pieces are words that were
kept, symbols and literals. So a second pass leaves every piece as it is, provided
that it finds the pieces again. Where a division has become a pattern, or a word the
flags of one, it may not: what was a literal is then cut in another place, and its
Bangla characters are rewritten.
-/
namespace BanglaSource

/-! ## Latin text -/

namespace Script

theorem latinDigit_of_not_isBangla {c : Char} (h : isBangla c = false) : latinDigit c = c := by
  have hdigit : isBanglaDigit c = false := by
    rw [← Bool.not_eq_true] at h ⊢
    simp only [isBangla, isBanglaDigit, Bool.and_eq_true, decide_eq_true_eq] at h ⊢
    omega
  simp [latinDigit, banglaDigitValue?, hdigit]

theorem latinDigits_of_not_hasBangla {s : Text} (h : hasBangla s = false) : latinDigits s = s := by
  have hlatin : ∀ c ∈ s, isBangla c = false := by simpa [hasBangla] using h
  calc s.map latinDigit
    _ = s.map id := List.map_congr_left fun c hc => latinDigit_of_not_isBangla (hlatin c hc)
    _ = s := List.map_id s

theorem latinDigit_latinDigit (c : Char) : latinDigit (latinDigit c) = latinDigit c := by
  cases hbangla : isBanglaDigit c with
  | true =>
    have hdigit : (latinDigit c).isDigit = true := isDigit_latinDigit (by simp [isAnyDigit, hbangla])
    have hpart : Identifier.isPart (latinDigit c) = true := by
      simp [Identifier.isPart, Char.isAlphanum, hdigit]
    exact latinDigit_of_not_isBangla (Identifier.not_isBangla_of_isPart hpart)
  | false =>
    have hsame : latinDigit c = c := by simp [latinDigit, banglaDigitValue?, hbangla]
    rw [hsame, hsame]

end Script

theorem Lexeme.target_of_not_hasBangla (keepNames : Bool) {l : Lexeme}
    (h : Script.hasBangla l.text = false) : l.target keepNames = l.text := by
  obtain ⟨kind, text⟩ := l
  cases kind with
  | word => exact targetWord_of_not_hasBangla keepNames h
  | number => exact Script.latinDigits_of_not_hasBangla h
  | _ => rfl

/-- A text without Bangla characters is its own target text. -/
theorem targetText_of_not_hasBangla (keepNames : Bool) {s : Text}
    (h : Script.hasBangla s = false) : targetText keepNames s = s := by
  have htext : Lexer.textOf (lexemes s) = s := (Lexer.cutsAll_lexemesFrom true s).2
  have hlatin : ∀ l ∈ lexemes s, Script.hasBangla l.text = false := by
    rw [← htext] at h
    simpa [Script.hasBangla, Lexer.textOf] using h
  calc targetText keepNames s
    _ = (lexemes s).flatMap (·.text) :=
        List.flatMap_congr fun l hl => l.target_of_not_hasBangla keepNames (hlatin l hl)
    _ = s := htext

/-! ## Two passes -/

theorem targetWord_targetWord (keepNames : Bool) {word : Text} (h : Keyword.find? word = none) :
    targetWord keepNames (targetWord keepNames word) = targetWord keepNames word := by
  have htarget : targetWord keepNames word =
      if !keepNames && Script.hasBangla word then Identifier.ofText word else word := by
    simp [targetWord, h]
  by_cases hmade : (!keepNames && Script.hasBangla word) = true
  · rw [if_pos hmade] at htarget
    rw [htarget, targetWord_of_not_hasBangla keepNames (Identifier.not_hasBangla_ofText word)]
  · rw [if_neg hmade] at htarget
    rw [htarget, htarget]

/-- What a lexeme stands for has nothing to rewrite. -/
theorem Lexeme.targetLexemes_relexed (keepNames : Bool) (l : Lexeme) :
    targetLexemes keepNames (l.relexed keepNames) = l.target keepNames := by
  obtain ⟨kind, text⟩ := l
  cases kind with
  | word =>
    cases hkeyword : Keyword.find? text with
    | some k =>
      have hlatin := Keyword.not_hasBangla_target k (Keyword.find?_eq_some hkeyword).1
      have hsame := targetText_of_not_hasBangla keepNames hlatin
      simpa [relexed, target, targetWord, hkeyword, targetText] using hsame
    | none =>
      have hsame := targetWord_targetWord keepNames hkeyword
      simpa [relexed, hkeyword, targetLexemes, target] using hsame
  | number =>
    simp [relexed, targetLexemes, target, Script.latinDigits, Script.latinDigit_latinDigit]
  | _ => simp [relexed, targetLexemes, target]

theorem targetText_targetText {keepNames : Bool} {source : Text}
    (h : Lexer.Faithful keepNames (lexemes source)) :
    targetText keepNames (targetText keepNames source) = targetText keepNames source := by
  calc targetText keepNames (targetText keepNames source)
    _ = targetLexemes keepNames ((lexemes source).flatMap (·.relexed keepNames)) := by
        rw [targetText, Lexer.lexemes_targetText h]
    _ = (lexemes source).flatMap fun l => targetLexemes keepNames (l.relexed keepNames) :=
        List.flatMap_assoc
    _ = targetText keepNames source := by
        simp only [Lexeme.targetLexemes_relexed]
        rfl

/-- Without words for operators, and without words right behind patterns, a second pass
    changes nothing. -/
theorem targetText_idempotent (keepNames : Bool) (source : Text)
    (hoperators : ∀ t ∈ tokenize source, t.isOperatorWord = false)
    (hwords : (tokenize source).IsChain fun p w => p.kind = .pattern → w.kind ≠ .word) :
    targetText keepNames (targetText keepNames source) = targetText keepNames source := by
  apply targetText_targetText
  rw [← map_toLexeme_tokenize]
  refine Lexer.faithful_of_isChain ?_ ((List.isChain_map _).2 hwords)
  simpa using hoperators

/-- A keyword, a pattern, a string and a division by a Bangla number. -/
def returnedQuotient : Text := "ফেরত /ক/g + \"খ\" / ১২"

theorem targetText_idempotent_returnedQuotient :
    (∀ t ∈ tokenize returnedQuotient, t.isOperatorWord = false) ∧
    ((tokenize returnedQuotient).IsChain fun p w => p.kind = .pattern → w.kind ≠ .word) ∧
    targetText false (targetText false returnedQuotient) = targetText false returnedQuotient ∧
    targetText false returnedQuotient ≠ returnedQuotient := by
  have h : (∀ t ∈ tokenize returnedQuotient, t.isOperatorWord = false) ∧
      (tokenize returnedQuotient).IsChain fun p w => p.kind = .pattern → w.kind ≠ .word := by
    decide +kernel
  have hchanged : targetText false returnedQuotient ≠ returnedQuotient := by
    decide +kernel
  exact ⟨h.1, h.2, targetText_idempotent false returnedQuotient h.1 h.2, hchanged⟩

end BanglaSource
