-- SUMMARY: Whether a slash is a division or opens a pattern follows from the last token that is no gap, and from its line.
import BanglaSource.Proofs.PatternGrammar
import BanglaSource.Proofs.Relexing
import BanglaSource.Proofs.TokenPlaces

/-!
# Division and pattern

The lexer carries one bit along, whether a value is expected. The bit forgets: a
lexeme that is no gap sets it without a look at what it was, and gaps leave it
alone. So after any number of lexemes it depends on the last one that is no gap.
A slash that opens no comment is a pattern exactly if the bit is set and the slash
has a partner on its line.
-/
namespace BanglaSource

/-! ## The last lexeme that counts -/

namespace Lexeme

/-- Operators, separators, opening brackets, and the words after which a value is
    expected, in any spelling. -/
def ExpectsValue (l : Lexeme) : Prop :=
  (l.kind = .symbol ∧ ∃ c ∈ expressionSymbols, l.text = [c]) ∨
  (l.kind = .word ∧ ∃ w ∈ expressionKeywords, Script.canonicalize l.text = Script.canonicalize w)

/-- What a lexeme that is no gap leaves expected does not depend on what was
    expected before. -/
theorem leavesValue_iff {l : Lexeme} (h : l.isGap = false) (inValue : Bool) :
    l.leavesValue inValue = true ↔ l.ExpectsValue := by
  obtain ⟨kind, text⟩ := l
  cases kind with
  | symbol =>
    have hblank : isBlank ⟨.symbol, text⟩ = false := by simpa [isGap] using h
    simp only [leavesValue, hblank, ExpectsValue, Bool.false_eq_true, if_false]
    split
    · simp
    · next hsingle =>
      have hmany : ∀ c, text ≠ [c] := fun c heq => hsingle c heq
      simp [hmany]
  | word => simp [leavesValue, ExpectsValue, expressionIndex, eq_comm]
  | comment => simp [isGap] at h
  | number | string | pattern => simp [leavesValue, ExpectsValue]

end Lexeme

namespace Lexer

/-- A value is expected after lexemes if the last of them that is no gap expects
    one, or if there is none and a value was expected before. -/
theorem valueAfter_iff (inValue : Bool) (ls : List Lexeme) :
    valueAfter inValue ls = true ↔
      match ls.reverse.find? (!·.isGap) with
      | some l => l.ExpectsValue
      | none => inValue = true := by
  -- The last lexeme decides first, so the induction takes lexemes off the end.
  induction ls using List.reverseRecOn with
  | nil => rfl
  | append_singleton ls l ih =>
    have hstep : valueAfter inValue (ls ++ [l]) = l.leavesValue (valueAfter inValue ls) := by
      simp [valueAfter]
    rw [hstep, List.reverse_append, List.reverse_singleton, List.singleton_append, List.find?_cons]
    cases hgap : l.isGap with
    | true => rw [leavesValue_of_isGap hgap, ih]; rfl
    | false => exact Lexeme.leavesValue_iff hgap _

/-- At the start of a source a value is expected. -/
theorem valueAfter_true_iff (ts : List Token) :
    valueAfter true (ts.map Token.toLexeme) = true ↔
      ∀ t ∈ ts.reverse.find? (!·.isGap), t.ExpectsValue := by
  have hfind : (ts.map Token.toLexeme).reverse.find? (!·.isGap) =
      (ts.reverse.find? (!·.isGap)).map Token.toLexeme := by
    rw [← List.map_reverse, List.find?_map]
    rfl
  rw [valueAfter_iff, hfind]
  cases ts.reverse.find? (!·.isGap) <;> simp

/-! ## Slashes -/

/-- A cut that starts with a slash is a comment, a pattern or the slash alone. -/
theorem Cuts.slash_cases {inValue : Bool} {kind : Kind} {s rest : Text}
    (h : Cuts inValue ⟨kind, '/' :: s⟩ rest) (hcomment : s.Avoids opensComment) :
    (kind = .pattern ∧ inValue = true ∧ Literal.Closes (s ++ rest)) ∨
    (kind = .symbol ∧ s = [] ∧ (inValue = true → ¬ Literal.Closes rest)) := by
  cases h with
  | pattern hvalue _ hclose =>
    exact .inl ⟨rfl, hvalue, (Literal.isSome_closePattern_iff _).1 (by simp [hclose])⟩
  | slash _ hclose =>
    refine .inr ⟨rfl, rfl, fun hvalue hcloses => ?_⟩
    have hsome := (Literal.isSome_closePattern_iff rest).2 hcloses
    simp [hclose hvalue] at hsome
  | lineComment | blockComment => simp [opensComment] at hcomment
  | symbol _ hne => exact absurd rfl hne
  | string hc | number hc | word hc | blank hc => exact absurd hc (by decide)

end Lexer

/-- A token that starts with a slash and is no comment is a pattern exactly if two
    things hold. The nearest token before it that is neither blank nor a comment, if
    there is one, is a symbol or a word after which a value is expected. And the
    slash has a partner on its line, outside escapes and classes. Otherwise the token
    is the slash alone. -/
theorem tokenize_slash_pattern_iff (source : Text) (before after : List Token) (t : Token)
    (h : tokenize source = before ++ t :: after) (hslash : ['/'] <+: t.text)
    (hline : ¬ ['/', '/'] <+: t.text) (hblock : ¬ ['/', '*'] <+: t.text) :
    ∃ s, source = before.flatMap (·.text) ++ '/' :: s ∧
      (t.kind = .pattern ↔
        (∀ l ∈ before.reverse.find? (!·.isGap), l.ExpectsValue) ∧ Literal.Closes s) ∧
      (t.kind ≠ .pattern → t.kind = .symbol ∧ t.text = ['/']) := by
  have hcut := cuts_of_tokenize h
  have hsource := source_of_tokenize h
  obtain ⟨⟨kind, text⟩, span⟩ := t
  obtain ⟨s, rfl⟩ := hslash
  simp only [List.singleton_append] at hcut hsource hline hblock
  have hcomment : Text.Avoids Lexer.opensComment s := by
    cases s with
    | nil => simp
    | cons c s =>
      have hline : c ≠ '/' := by simpa [eq_comm] using hline
      have hblock : c ≠ '*' := by simpa [eq_comm] using hblock
      simp [Lexer.opensComment, hline, hblock]
  refine ⟨s ++ after.flatMap (·.text), by simpa using hsource, ?_⟩
  rw [← Lexer.valueAfter_true_iff]
  rcases hcut.slash_cases hcomment with ⟨rfl, hvalue, hcloses⟩ | ⟨rfl, rfl, hcloses⟩
  · simp [hvalue, hcloses]
  · simpa using hcloses

/-- A pattern behind a keyword and a comment. Its own slashes are escaped or stand in
    a class. -/
def returnedPattern : Text := "ফেরত /**/ /[/]\\//g"

/-- A division behind a name, although its slash has a partner. -/
def repeatedDivision : Text := "ক /খ/g"

theorem tokenize_slash_pattern_iff_returnedPattern :
    (∃ before t, tokenize returnedPattern = before ++ [t] ∧ t.text = "/[/]\\//g".toList ∧
      (∀ l ∈ before.reverse.find? (!·.isGap), l.ExpectsValue) ∧ Literal.Closes "[/]\\//g") ∧
    ∃ before t after, tokenize repeatedDivision = before ++ t :: after ∧ t.text = ['/'] ∧
      ¬ ((∀ l ∈ before.reverse.find? (!·.isGap), l.ExpectsValue) ∧ Literal.Closes "খ/g") := by
  constructor
  · let t : Token := ⟨⟨.pattern, "/[/]\\//g"⟩, ⟨1, 11, 1, 18⟩⟩
    have h : tokenize returnedPattern = (tokenize returnedPattern).take 4 ++ [t] := by
      decide +kernel
    have hbefore : ((tokenize returnedPattern).take 4).flatMap (·.text) = "ফেরত /**/ ".toList := by
      decide +kernel
    obtain ⟨s, hs, hiff, -⟩ := tokenize_slash_pattern_iff returnedPattern _ [] t h (by decide)
      (by decide) (by decide)
    have hrest : "[/]\\//g".toList = s := by
      rw [hbefore] at hs
      have happend : "ফেরত /**/ ".toList ++ '/' :: "[/]\\//g".toList =
        "ফেরত /**/ ".toList ++ '/' :: s := hs
      exact (List.cons.inj (List.append_cancel_left happend)).2
    exact ⟨_, t, h, rfl, (hiff.1 rfl).1, hrest ▸ (hiff.1 rfl).2⟩
  · let t : Token := ⟨⟨.symbol, ['/']⟩, ⟨1, 3, 1, 3⟩⟩
    have h : tokenize repeatedDivision =
        (tokenize repeatedDivision).take 2 ++ t :: (tokenize repeatedDivision).drop 3 := by
      decide +kernel
    have hbefore : ((tokenize repeatedDivision).take 2).flatMap (·.text) = "ক ".toList := by
      decide +kernel
    obtain ⟨s, hs, hiff, -⟩ := tokenize_slash_pattern_iff repeatedDivision _ _ t h (by decide)
      (by decide) (by decide)
    have hrest : "খ/g".toList = s := by
      rw [hbefore] at hs
      have happend : "ক ".toList ++ '/' :: "খ/g".toList = "ক ".toList ++ '/' :: s := hs
      exact (List.cons.inj (List.append_cancel_left happend)).2
    exact ⟨_, t, _, h, rfl, fun hboth => by cases hiff.2 (hrest ▸ hboth)⟩

end BanglaSource
