-- SUMMARY: The characters of the target text: Bangla stands in literals only, and which words become valid identifiers.
import BanglaSource.Proofs.TargetLines
import BanglaSource.Proofs.TargetSpelling

/-!
# The alphabet of the target text

Every Bangla character of a source belongs to a word, to a number or to a literal.
Words and numbers have Latin targets once names are not kept, so what is left of the
Bengali block stands in literals, which are not touched. A word without Bangla
characters is not touched either, and so the joiners that it may hold stay in it.
-/
namespace BanglaSource

/-! ## Digits -/

namespace Script

/-- The numeric value of a digit of either script. -/
def digitValue? (c : Char) : Option Nat :=
  if 0x30 ≤ c.toNat ∧ c.toNat ≤ 0x39 then some (c.toNat - 0x30)
  else if 0x09E6 ≤ c.toNat ∧ c.toNat ≤ 0x09EF then some (c.toNat - 0x09E6)
  else none

theorem digitValue?_latinDigit (c : Char) : digitValue? (latinDigit c) = digitValue? c := by
  have hdigits : ∀ d < 10, digitValue? (Nat.digitChar d) = some d := by decide
  by_cases hbangla : isBanglaDigit c = true
  · have hrange := hbangla
    simp only [isBanglaDigit, Bool.and_eq_true, decide_eq_true_eq] at hrange
    have hlatinDigit : latinDigit c = Nat.digitChar (c.toNat - 0x09E6) := by
      simp [latinDigit, banglaDigitValue?, hbangla]
    rw [hlatinDigit, hdigits _ (by omega), digitValue?, if_neg (by omega), if_pos hrange]
  · simp [latinDigit, banglaDigitValue?, hbangla]

/-! ## Characters of words -/

theorem isWordStart_of_isBangla {c : Char} (h : isBangla c = true)
    (hdigit : isAnyDigit c = false) : isWordStart c = true := by
  simp only [isAnyDigit, Bool.or_eq_false_iff] at hdigit
  simp [isWordStart, h, hdigit.2]

theorem isWordContinue_of_isBangla {c : Char} (h : isBangla c = true) :
    isWordContinue c = true := by
  cases hdigit : isAnyDigit c with
  | true => exact isWordContinue_of_isAnyDigit hdigit
  | false => exact isWordContinue_of_isWordStart (isWordStart_of_isBangla h hdigit)

end Script

namespace Identifier

/-- Characters of words that an identifier may start with are the Latin ones. -/
theorem isStart_iff (c : Char) :
    isStart c = true ↔ Script.isWordStart c = true ∧ Script.isBangla c = false := by
  constructor
  · intro h
    exact ⟨isWordStart_of_isStart h, not_isBangla_of_isPart (isPart_of_isStart h)⟩
  · rintro ⟨hstart, hbangla⟩
    simpa [isStart, Script.isWordStart, hbangla] using hstart

/-- Characters of words that may stand in an identifier are the Latin ones, without
    the joiners. -/
theorem isPart_iff (c : Char) :
    isPart c = true ↔ Script.isWordContinue c = true ∧ Script.isBangla c = false ∧
      Script.isJoiner c = false := by
  rw [← Bool.not_eq_true, ← Bool.not_eq_true, Script.isWordContinue_iff]
  simp only [isPart, Char.isAlphanum, isAlpha_iff, isDigit_iff, Script.isBangla, Script.isJoiner,
    Bool.or_eq_true, Bool.and_eq_true, decide_eq_true_eq, beq_iff_eq, ← Char.toNat_inj,
    Char.reduceToNat]
  omega

/-- A word that is not touched is an identifier unless a joiner stands in it. -/
theorem isValid_word_iff {c : Char} {s : Text} (hc : Script.isWordStart c = true)
    (hs : ∀ d ∈ s, Script.isWordContinue d = true) (hbangla : Script.hasBangla (c :: s) = false) :
    isValid (c :: s) = true ↔ ∀ d ∈ c :: s, Script.isJoiner d = false := by
  have hlatin : ∀ d ∈ c :: s, Script.isBangla d = false := by
    simpa [Script.hasBangla] using hbangla
  rw [List.forall_mem_cons] at hlatin
  constructor
  · intro hvalid d hd
    exact ((isPart_iff d).1 (isPart_of_isValid hvalid d hd)).2.2
  · intro hjoiner
    rw [List.forall_mem_cons] at hjoiner
    refine (isValid_iff _).2 ⟨c, s, rfl, (isStart_iff c).2 ⟨hc, hlatin.1⟩, fun d hd => ?_⟩
    exact (isPart_iff d).2 ⟨hs d hd, hlatin.2 d hd, hjoiner.2 d hd⟩

end Identifier

/-! ## Pieces -/

/-- The target of a word is Latin. -/
theorem not_hasBangla_targetWord (word : Text) :
    Script.hasBangla (targetWord false word) = false := by
  unfold targetWord
  cases hkeyword : Keyword.find? word with
  | some k => exact Keyword.not_hasBangla_target k (Keyword.find?_eq_some hkeyword).1
  | none =>
    cases hbangla : Script.hasBangla word with
    | true => exact Identifier.not_hasBangla_ofText word
    | false => simpa using hbangla

/-- A word without Bangla characters is not touched. -/
theorem targetWord_of_not_hasBangla (keepNames : Bool) {word : Text}
    (h : Script.hasBangla word = false) : targetWord keepNames word = word := by
  simp [targetWord, Keyword.find?_of_not_hasBangla h, h]

/-- What is no literal has a Latin target. -/
theorem Lexer.Cuts.not_hasBangla_target {inValue : Bool} {l : Lexeme} {rest : Text}
    (h : Cuts inValue l rest) (hliteral : l.isLiteral = false) :
    Script.hasBangla (l.target false) = false := by
  have hcut := h
  cases h with
  | word => exact not_hasBangla_targetWord _
  | number => exact Script.not_hasBangla_latinDigits (hcut.isNumberPart_of_number rfl)
  | slash => rfl
  | @blank c s _ hc hs _ =>
    have hblanks : ∀ d ∈ c :: s, isBlank d = true := List.forall_mem_cons.2 ⟨hc, hs⟩
    refine List.any_eq_false.2 fun d hd hbangla => ?_
    have hblank := hblanks d hd
    rw [Script.not_isBlank_of_isWordContinue (Script.isWordContinue_of_isBangla hbangla)] at hblank
    cases hblank
  | symbol _ _ hdigit hstart =>
    refine List.any_eq_false.2 fun d hd hbangla => ?_
    rw [List.mem_singleton.1 hd] at hbangla
    rw [Script.isWordStart_of_isBangla hbangla hdigit] at hstart
    cases hstart
  | string | lineComment | blockComment | pattern => cases hliteral

theorem Lexeme.target_of_isLiteral (keepNames : Bool) {l : Lexeme} (h : l.isLiteral = true) :
    l.target keepNames = l.text := by
  obtain ⟨kind, text⟩ := l
  cases kind with
  | string | comment | pattern => rfl
  | word | number | symbol => cases h

/-- In the target text, with no names kept, tokens that are no literals have pieces
    without Bangla characters. Numbers keep the values and the places of their digits,
    and literals keep everything. So each Bangla character of the target text is one
    of a literal of the source. -/
theorem target_bangla_only_in_literals (source : Text) :
    (∀ t ∈ tokenize source, t.isLiteral = false → ∀ c ∈ t.target false, Script.isBangla c = false) ∧
    (∀ t ∈ tokenize source, t.kind = .number →
      (∀ c ∈ t.target false, c.isDigit = true ∨ c = '.') ∧
      (t.target false).map Script.digitValue? = t.text.map Script.digitValue?) ∧
    (∀ t ∈ tokenize source, t.isLiteral = true → t.target false = t.text) ∧
    (∀ before c after, targetText false source = before ++ c :: after → Script.isBangla c = true →
      ∃ ts t us inside rest, tokenize source = ts ++ t :: us ∧ t.isLiteral = true ∧
        t.text = inside ++ c :: rest ∧ before = ts.flatMap (·.target false) ++ inside ∧
        after = rest ++ us.flatMap (·.target false)) := by
  have hlatin : ∀ t ∈ tokenize source, t.isLiteral = false →
      ∀ c ∈ t.target false, Script.isBangla c = false := by
    intro t ht hliteral
    obtain ⟨_, _, hcut⟩ := cuts_of_mem_tokenize ht
    simpa [Script.hasBangla] using hcut.not_hasBangla_target hliteral
  refine ⟨hlatin, ?_, fun t _ => Lexeme.target_of_isLiteral false, ?_⟩
  · intro t ht hnumber
    obtain ⟨_, _, hcut⟩ := cuts_of_mem_tokenize ht
    have htarget : t.target false = Script.latinDigits t.text := by simp [Lexeme.target, hnumber]
    rw [htarget]
    refine ⟨Script.latinDigits_ascii (hcut.isNumberPart_of_number hnumber), ?_⟩
    simp [Script.latinDigits, Script.digitValue?_latinDigit]
  · intro before c after heq hbangla
    rw [targetText_eq_flatMap] at heq
    obtain ⟨ts, t, us, inside, rest, htokens, hpiece, hbefore, hafter⟩ := exists_piece_of_flatMap heq
    have ht : t ∈ tokenize source := by simp [htokens]
    cases hliteral : t.isLiteral with
    | true =>
      rw [Lexeme.target_of_isLiteral false hliteral] at hpiece
      exact ⟨ts, t, us, inside, rest, htokens, hliteral, hpiece, hbefore, hafter⟩
    | false =>
      rw [hlatin t ht hliteral c (by simp [hpiece])] at hbangla
      cases hbangla

/-- A name, a Bangla number and a string. -/
def mixedPieces : Text := "ক = ১.৫ + \"খ\""

theorem target_bangla_only_in_literals_mixedPieces :
    (∃ t ∈ tokenize mixedPieces, t.kind = .word ∧ Script.hasBangla t.text = true ∧
      ∀ c ∈ t.target false, Script.isBangla c = false) ∧
    (∃ t ∈ tokenize mixedPieces, t.kind = .number ∧
      (t.target false).map Script.digitValue? = [some 1, none, some 5]) ∧
    ∃ before after, targetText false mixedPieces = before ++ 'খ' :: after ∧
      ∃ t ∈ tokenize mixedPieces, t.isLiteral = true ∧ t.target false = t.text ∧ 'খ' ∈ t.text := by
  obtain ⟨hlatin, hnumbers, hliterals, hplaces⟩ := target_bangla_only_in_literals mixedPieces
  obtain ⟨name, hname, hword, hbangla⟩ : ∃ t ∈ tokenize mixedPieces,
      t.kind = .word ∧ Script.hasBangla t.text = true := by
    decide +kernel
  obtain ⟨number, hnumber, hkind, hvalues⟩ : ∃ t ∈ tokenize mixedPieces,
      t.kind = .number ∧ t.text.map Script.digitValue? = [some 1, none, some 5] := by
    decide +kernel
  obtain ⟨string, hstring, hliteral, hmem⟩ : ∃ t ∈ tokenize mixedPieces,
      t.isLiteral = true ∧ 'খ' ∈ t.text := by
    decide +kernel
  have htarget : 'খ' ∈ targetText false mixedPieces := by
    rw [targetText_eq_flatMap, List.mem_flatMap]
    exact ⟨string, hstring, (hliterals string hstring hliteral).symm ▸ hmem⟩
  obtain ⟨before, after, heq⟩ := List.append_of_mem htarget
  obtain ⟨ts, t, us, inside, rest, htokens, hliteral, htext, -⟩ :=
    hplaces before 'খ' after heq (by decide)
  have ht : t ∈ tokenize mixedPieces := by simp [htokens]
  refine ⟨⟨name, hname, hword, hbangla, hlatin name hname ?_⟩, ⟨number, hnumber, hkind, ?_⟩,
    before, after, heq, t, ht, hliteral, hliterals t ht hliteral, by simp [htext]⟩
  · simp [Lexeme.isLiteral, hword, Kind.isLiteral]
  · rw [(hnumbers number hnumber hkind).2, hvalues]

/-! ## Names -/

/-- A word that is no keyword becomes a valid identifier if and only if it has a Bangla
    character or has no joiner. -/
theorem isValid_target_name_iff (source : Text) :
    ∀ t ∈ tokenize source, t.kind = .word → Keyword.find? t.text = none →
      (Identifier.isValid (t.target false) = true ↔
        Script.hasBangla t.text = true ∨ ∀ c ∈ t.text, Script.isJoiner c = false) := by
  intro t ht hword hkeyword
  have htarget : t.target false =
      if Script.hasBangla t.text then Identifier.ofText t.text else t.text := by
    simp [Lexeme.target, hword, targetWord, hkeyword]
  rw [htarget]
  cases hbangla : Script.hasBangla t.text with
  | true => simp [(Identifier.isFree_ofText t.text).1]
  | false =>
    obtain ⟨_, _, hcut⟩ := cuts_of_mem_tokenize ht
    obtain ⟨⟨kind, text⟩, span⟩ := t
    cases hcut with
    | word hc hs _ => simpa using Identifier.isValid_word_iff hc hs hbangla
    | _ => cases hword

/-- Two Latin names, the second with a joiner. -/
def joinedNames : Text := "$x1 = a\u200db"

theorem isValid_target_name_iff_joinedNames :
    (∃ t ∈ tokenize joinedNames, t.kind = .word ∧ Keyword.find? t.text = none ∧
      Identifier.isValid (t.target false) = true) ∧
    (∃ t ∈ tokenize joinedNames, t.kind = .word ∧ Keyword.find? t.text = none ∧
      Identifier.isValid (t.target false) ≠ true) := by
  obtain ⟨⟨plain, hplain, hword, hlatin, hjoiners⟩, joined, hjoined, hword', hlatin', hjoiners'⟩ :
      (∃ t ∈ tokenize joinedNames, t.kind = .word ∧ Script.hasBangla t.text = false ∧
        t.text.any Script.isJoiner = false) ∧
      (∃ t ∈ tokenize joinedNames, t.kind = .word ∧ Script.hasBangla t.text = false ∧
        t.text.any Script.isJoiner = true) := by
    decide +kernel
  have hkeyword := Keyword.find?_of_not_hasBangla hlatin
  have hkeyword' := Keyword.find?_of_not_hasBangla hlatin'
  refine ⟨⟨plain, hplain, hword, hkeyword, ?_⟩, joined, hjoined, hword', hkeyword', ?_⟩
  · rw [isValid_target_name_iff joinedNames plain hplain hword hkeyword]
    exact .inr (by simpa using hjoiners)
  · rw [Ne, isValid_target_name_iff joinedNames joined hjoined hword' hkeyword']
    simpa [hlatin'] using hjoiners'

/-- A joiner in a Latin name is left in it, although no identifier may hold one. -/
theorem isValid_target_name_joiner :
    (∃ t ∈ tokenize "a\u200db", t.kind = .word ∧ Keyword.find? t.text = none ∧
      t.target false = "a\u200db" ∧ Identifier.isValid (t.target false) = false) ∧
    ¬ ∀ source, ∀ t ∈ tokenize source, t.kind = .word → Keyword.find? t.text = none →
      Identifier.isValid (t.target false) = true := by
  obtain ⟨t, ht, hword, htext⟩ : ∃ t ∈ tokenize "a\u200db",
      t.kind = .word ∧ t.text = "a\u200db" := by
    decide +kernel
  have hlatin : Script.hasBangla t.text = false := by
    rw [htext]
    decide +kernel
  have hkeyword := Keyword.find?_of_not_hasBangla hlatin
  have htarget : t.target false = "a\u200db" := by
    rw [← htext]
    simp [Lexeme.target, hword, targetWord_of_not_hasBangla false hlatin]
  have hinvalid : Identifier.isValid (t.target false) = false := by
    rw [htarget]
    decide +kernel
  refine ⟨⟨t, ht, hword, hkeyword, htarget, hinvalid⟩, ?_⟩
  intro hvalid
  rw [hvalid _ t ht hword hkeyword] at hinvalid
  cases hinvalid

end BanglaSource
