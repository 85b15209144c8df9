-- SUMMARY: What a token of each kind looks like, where it ends, and which tokens never stand side by side.
import BanglaSource.Proofs.PatternGrammar
import BanglaSource.Proofs.TokenPlaces
import Mathlib.Algebra.Group.Nat.Even
import Mathlib.Data.List.Basic
import Mathlib.Data.List.Induction

/-!
# Lexical grammar

Runs of characters end where the next character lies outside their class. A string
ends at the first quote in front of which the backslashes are even in number, and a
block comment at the first star with a slash behind it. The scanner of strings knows
nothing of numbers of backslashes: it skips each backslash together with the
character behind it, and the two views are brought together by one bit.
-/
namespace BanglaSource

namespace Literal

/-! ## Escapes -/

/-- The number of backslashes at the end of a text. -/
def trailingBackslashes (s : Text) : Nat :=
  (s.reverse.takeWhile (· == '\\')).length

/-- Whether a scan from the left takes a character behind `s` for escaped. -/
def escapes (s : Text) : Bool :=
  s.foldl (fun escaped c => !escaped && c == '\\') false

theorem escapes_cons {c : Char} (h : c ≠ '\\') (s : Text) : escapes (c :: s) = escapes s := by
  simp [escapes, beq_eq_false_iff_ne.2 h]

theorem escapes_pair (c : Char) (s : Text) : escapes ('\\' :: c :: s) = escapes s := by
  simp [escapes]

/-- The bit of the scan is the parity of the backslashes. -/
theorem escapes_eq_false_iff (s : Text) : escapes s = false ↔ Even (trailingBackslashes s) := by
  induction s using List.reverseRecOn with
  | nil => simp [escapes, trailingBackslashes]
  | append_singleton s c ih =>
    have hstep : escapes (s ++ [c]) = (!escapes s && c == '\\') := by simp [escapes]
    rw [hstep]
    by_cases hc : c = '\\'
    · have hmore : trailingBackslashes (s ++ [c]) = trailingBackslashes s + 1 := by
        simp [trailingBackslashes, hc]
      rw [hmore, Nat.even_add_one, ← ih]
      simp [hc]
    · simp [trailingBackslashes, hc]

/-! ## Ends of strings -/

/-- Whether an odd number of backslashes stands in front of each `quote`. -/
def NeverCloses (quote : Char) (s : Text) : Prop :=
  ∀ u v, s = u ++ quote :: v → ¬ Even (trailingBackslashes u)

/-- Whether `s` is the part of a string behind its opening quote, in front of `rest`:
    up to the first quote with an even number of backslashes, or everything if there
    is no such quote. -/
def StringEnds (quote : Char) (s rest : Text) : Prop :=
  (∃ inside, s = inside ++ [quote] ∧ Even (trailingBackslashes inside) ∧
    NeverCloses quote inside) ∨
  (rest = [] ∧ NeverCloses quote s)

variable {quote : Char}

theorem neverCloses_nil : NeverCloses quote [] := by
  intro u v h
  simp at h

theorem NeverCloses.cons {c : Char} {s : Text} (h : NeverCloses quote s) (hquote : c ≠ quote)
    (hescape : c ≠ '\\') : NeverCloses quote (c :: s) := by
  intro u v heq
  cases u with
  | nil => exact absurd (List.cons.inj heq).1 hquote
  | cons d u =>
    obtain ⟨rfl, hs⟩ := List.cons.inj heq
    rw [← escapes_eq_false_iff, escapes_cons hescape, escapes_eq_false_iff]
    exact h u v hs

theorem NeverCloses.pair {s : Text} (h : NeverCloses quote s) (hquote : quote ≠ '\\') (c : Char) :
    NeverCloses quote ('\\' :: c :: s) := by
  intro u v heq
  rw [← escapes_eq_false_iff]
  match u with
  | [] => exact absurd (List.cons.inj heq).1.symm hquote
  | [d] =>
    obtain ⟨rfl, -⟩ := List.cons.inj heq
    simp [escapes]
  | d :: e :: u =>
    simp only [List.cons_append, List.cons.injEq] at heq
    obtain ⟨rfl, rfl, hs⟩ := heq
    rw [escapes_pair, escapes_eq_false_iff]
    exact h u v hs

theorem closeString_ends {s inside rest : Text} (hquote : quote ≠ '\\')
    (h : closeString quote s = (inside, rest)) : StringEnds quote inside rest := by
  fun_induction closeString quote s generalizing inside rest with
  | case1 =>
    cases h
    exact .inr ⟨rfl, neverCloses_nil⟩
  | case2 c s inside₀ rest₀ hclose ih =>
    cases h
    rcases ih hclose with ⟨u, rfl, heven, hfirst⟩ | ⟨hrest, hfirst⟩
    · refine .inl ⟨'\\' :: c :: u, rfl, ?_, hfirst.pair hquote c⟩
      rwa [← escapes_eq_false_iff, escapes_pair, escapes_eq_false_iff]
    · exact .inr ⟨hrest, hfirst.pair hquote c⟩
  | case3 s =>
    cases h
    exact .inl ⟨[], rfl, by simp [trailingBackslashes], neverCloses_nil⟩
  | case4 c s hescape hc inside₀ rest₀ hclose ih =>
    cases h
    by_cases hbackslash : c = '\\'
    · -- A backslash at the very end escapes nothing.
      subst hbackslash
      cases s with
      | nil =>
        cases hclose
        refine .inr ⟨rfl, ?_⟩
        intro u v heq
        cases u <;> simp_all
      | cons d s => exact absurd rfl (hescape d s rfl)
    · rcases ih hclose with ⟨u, rfl, heven, hfirst⟩ | ⟨hrest, hfirst⟩
      · refine .inl ⟨c :: u, rfl, ?_, hfirst.cons hc hbackslash⟩
        rwa [← escapes_eq_false_iff, escapes_cons hbackslash, escapes_eq_false_iff]
      · exact .inr ⟨hrest, hfirst.cons hc hbackslash⟩

/-! ## Ends of comments -/

/-- Whether `s` is the part of a block comment behind its opening, in front of `rest`:
    up to the first star with a slash behind it, or everything if there is none. -/
def CommentEnds (s rest : Text) : Prop :=
  (∃ inside, s = inside ++ ['*', '/'] ∧
    ∀ u v, s ++ rest = u ++ '*' :: '/' :: v → inside.length ≤ u.length) ∨
  (rest = [] ∧ ∀ u v, s ≠ u ++ '*' :: '/' :: v)

theorem closeComment_ends {s inside rest : Text} (h : closeComment s = (inside, rest)) :
    CommentEnds inside rest := by
  fun_induction closeComment s generalizing inside rest with
  | case1 =>
    cases h
    exact .inr ⟨rfl, by simp⟩
  | case2 s =>
    cases h
    exact .inl ⟨[], rfl, fun _ _ _ => Nat.zero_le _⟩
  | case3 c s hopen inside₀ rest₀ hclose ih =>
    cases h
    have happend : inside₀ ++ rest₀ = s := by
      rw [← closeComment_append s, hclose]
    rcases ih hclose with ⟨u, rfl, hfirst⟩ | ⟨rfl, hnone⟩
    · refine .inl ⟨c :: u, rfl, fun v w heq => ?_⟩
      cases v with
      | nil =>
        obtain ⟨rfl, hs⟩ := List.cons.inj heq
        exact (hopen w rfl (happend.symm.trans hs)).elim
      | cons d v => exact Nat.succ_le_succ (hfirst v w (List.cons.inj heq).2)
    · refine .inr ⟨rfl, fun v w heq => ?_⟩
      cases v with
      | nil =>
        obtain ⟨rfl, hs⟩ := List.cons.inj heq
        rw [List.append_nil] at happend
        exact hopen w rfl (happend.symm.trans hs)
      | cons d v => exact hnone v w (List.cons.inj heq).2

theorem isQuote_ne_backslash {c : Char} (h : isQuote c = true) : c ≠ '\\' := by
  rintro rfl
  exact absurd h (by decide)

end Literal

/-! ## Lexemes -/

/-- What a lexeme of each kind looks like, and where it ends in front of `rest`. -/
def Lexeme.Formed (l : Lexeme) (rest : Text) : Prop :=
  match l.kind with
  | .word => ∃ c s, l.text = c :: s ∧ Script.isWordStart c = true ∧
      (∀ d ∈ s, Script.isWordContinue d = true) ∧ rest.Avoids Script.isWordContinue
  | .number => ∃ c s, l.text = c :: s ∧ Script.isAnyDigit c = true ∧
      (∀ d ∈ s, Script.isAnyDigit d = true ∨ d = '.') ∧
      rest.Avoids Script.isAnyDigit ∧ rest.Avoids (· == '.')
  | .string => ∃ quote s, l.text = quote :: s ∧ Literal.isQuote quote = true ∧
      Literal.StringEnds quote s rest
  | .comment =>
      (∃ s, l.text = '/' :: '/' :: s ∧ '\n' ∉ l.text ∧ (rest = [] ∨ rest.head? = some '\n')) ∨
      (∃ s, l.text = '/' :: '*' :: s ∧ Literal.CommentEnds s rest)
  | .pattern => ∃ body flags, l.text = '/' :: body ++ '/' :: flags ∧ Literal.PatternBody body ∧
      Literal.OneLine body ∧ (∀ c ∈ flags, Literal.isFlag c = true) ∧ rest.Avoids Literal.isFlag
  | .symbol =>
      if l.isBlank then
        l.text ≠ [] ∧ (∀ c ∈ l.text, BanglaSource.isBlank c = true) ∧
          rest.Avoids BanglaSource.isBlank
      else
        ∃ c, l.text = [c] ∧ Literal.isQuote c = false ∧ Script.isAnyDigit c = false ∧
          Script.isWordStart c = false ∧ BanglaSource.isBlank c = false

namespace Lexer

theorem avoids_isNumberPart {rest : Text} (h : rest.Avoids isNumberPart) :
    rest.Avoids Script.isAnyDigit ∧ rest.Avoids (· == '.') := by
  constructor
  · intro c hc
    exact (Bool.or_eq_false_iff.1 (h c hc)).1
  · intro c hc
    exact (Bool.or_eq_false_iff.1 (h c hc)).2

theorem Cuts.formed {inValue : Bool} {l : Lexeme} {rest : Text} (h : Cuts inValue l rest) :
    l.Formed rest := by
  cases h with
  | string hquote hclose =>
    exact ⟨_, _, rfl, hquote, Literal.closeString_ends (Literal.isQuote_ne_backslash hquote) hclose⟩
  | @lineComment s _ hs hrest =>
    refine .inl ⟨s, rfl, ?_, ?_⟩
    · simpa using fun hmem => absurd (hs _ hmem) (by decide)
    · cases rest with
      | nil => exact .inl rfl
      | cons c rest => simpa using hrest
  | blockComment hclose => exact .inr ⟨_, rfl, Literal.closeComment_ends hclose⟩
  | pattern _ _ hclose =>
    obtain ⟨body, flags, rfl, hbody⟩ := Literal.closePattern_sound hclose
    exact ⟨body, flags, rfl, hbody⟩
  | slash => exact ⟨'/', rfl, by decide⟩
  | number hc hs hrest =>
    refine ⟨_, _, rfl, hc, ?_, avoids_isNumberPart hrest⟩
    simpa [isNumberPart] using hs
  | word hc hs hrest => exact ⟨_, _, rfl, hc, hs, hrest⟩
  | @blank c s _ hc hs hrest =>
    have hblank : Lexeme.isBlank ⟨.symbol, c :: s⟩ = true := by
      simpa [Lexeme.isBlank, Text.isBlankText] using ⟨hc, hs⟩
    simpa [Lexeme.Formed, hblank] using ⟨⟨hc, hs⟩, hrest⟩
  | @symbol c _ hquote hslash hdigit hstart hc =>
    have hblank : Lexeme.isBlank ⟨.symbol, [c]⟩ = false := by
      simp [Lexeme.isBlank, Text.isBlankText, hc]
    simpa [Lexeme.Formed, hblank] using ⟨hquote, hdigit, hstart, hc⟩

end Lexer

/-! ## Neighbours -/

namespace Lexeme

variable {l : Lexeme} {rest : Text}

theorem Formed.of_word (h : l.Formed rest) (hkind : l.kind = .word) :
    ∃ c s, l.text = c :: s ∧ Script.isWordStart c = true ∧
      (∀ d ∈ s, Script.isWordContinue d = true) ∧ rest.Avoids Script.isWordContinue := by
  simpa only [Formed, hkind] using h

theorem Formed.of_number (h : l.Formed rest) (hkind : l.kind = .number) :
    ∃ c s, l.text = c :: s ∧ Script.isAnyDigit c = true ∧
      (∀ d ∈ s, Script.isAnyDigit d = true ∨ d = '.') ∧
      rest.Avoids Script.isAnyDigit ∧ rest.Avoids (· == '.') := by
  simpa only [Formed, hkind] using h

theorem Formed.of_isBlank (h : l.Formed rest) (hblank : l.isBlank = true) :
    l.text ≠ [] ∧ (∀ c ∈ l.text, BanglaSource.isBlank c = true) ∧
      rest.Avoids BanglaSource.isBlank := by
  have hkind : l.kind = .symbol := by
    simp only [Lexeme.isBlank, Bool.and_eq_true, beq_iff_eq] at hblank
    exact hblank.1
  simpa only [Formed, hkind, hblank, if_true] using h

theorem isWordContinue_of_isFlag {c : Char} (h : Literal.isFlag c = true) :
    Script.isWordContinue c = true := by
  have hflags : ['d', 'g', 'i', 'm', 's', 'u', 'v', 'y'].all Script.isWordContinue = true := by
    decide
  exact List.all_eq_true.1 hflags c (List.contains_iff_mem.1 h)

/-- A comment up to the end of its line. -/
def IsLineComment (l : Lexeme) : Prop :=
  l.kind = .comment ∧ ['/', '/'] <+: l.text

/-- In front of more text only line comments can end in a blank without being blank. -/
theorem Formed.last_not_blank (h : l.Formed rest) (hline : ¬ l.IsLineComment)
    (hblank : l.isBlank = false) (hrest : rest ≠ []) :
    ∀ c ∈ l.text.getLast?, BanglaSource.isBlank c = false := by
  intro c hc
  obtain ⟨kind, text⟩ := l
  cases kind with
  | word =>
    obtain ⟨d, s, rfl, hd, hs, -⟩ := h
    apply Script.not_isBlank_of_isWordContinue
    rcases List.mem_cons.1 (List.mem_of_getLast? hc) with rfl | hmem
    · exact Script.isWordContinue_of_isWordStart hd
    · exact hs c hmem
  | number =>
    obtain ⟨d, s, rfl, hd, hs, -⟩ := h
    have hdigit : Script.isAnyDigit c = true ∨ c = '.' := by
      rcases List.mem_cons.1 (List.mem_of_getLast? hc) with rfl | hmem
      · exact .inl hd
      · exact hs c hmem
    rcases hdigit with hdigit | rfl
    · exact Script.not_isBlank_of_isWordContinue (Script.isWordContinue_of_isAnyDigit hdigit)
    · decide
  | string =>
    obtain ⟨quote, s, rfl, hquote, ⟨inside, rfl, -⟩ | ⟨hnil, -⟩⟩ := h
    · rw [← List.cons_append, Option.mem_def, List.getLast?_concat, Option.some.injEq] at hc
      subst hc
      rw [← Bool.not_eq_true]
      intro hc
      rw [not_isQuote_of_isBlank hc] at hquote
      cases hquote
    · exact absurd hnil hrest
  | comment =>
    obtain ⟨s, rfl, -⟩ | ⟨s, rfl, ⟨inside, rfl, -⟩ | ⟨hnil, -⟩⟩ := h
    · exact absurd ⟨rfl, s, rfl⟩ hline
    · have htext : '/' :: '*' :: (inside ++ ['*', '/']) =
          '/' :: '*' :: inside ++ ['*'] ++ ['/'] := by
        simp
      rw [htext, Option.mem_def, List.getLast?_concat, Option.some.injEq] at hc
      subst hc
      decide
    · exact absurd hnil hrest
  | pattern =>
    obtain ⟨body, flags, rfl, -, -, hflags, -⟩ := h
    have hmem : c ∈ '/' :: flags := by
      refine List.mem_of_getLast? ?_
      rwa [Option.mem_def, List.getLast?_append_cons] at hc
    rcases List.mem_cons.1 hmem with rfl | hmem
    · decide
    · exact Script.not_isBlank_of_isWordContinue (isWordContinue_of_isFlag (hflags c hmem))
  | symbol =>
    simp only [Formed, hblank, Bool.false_eq_true, if_false] at h
    obtain ⟨d, rfl, -, -, -, hd⟩ := h
    obtain rfl : d = c := by simpa using hc
    exact hd

/-- Which lexemes never stand side by side. A blank in front of blanks belongs to a line
    comment. -/
structure Apart (p l : Lexeme) : Prop where
  words : ¬ (p.kind = .word ∧ l.kind = .word)
  wordNumber : ¬ (p.kind = .word ∧ l.kind = .number)
  numbers : ¬ (p.kind = .number ∧ l.kind = .number)
  blanks : ¬ (p.isBlank = true ∧ l.isBlank = true)
  blankEnd : l.isBlank = true → ¬ p.IsLineComment →
    ∀ c ∈ p.text.getLast?, BanglaSource.isBlank c = false

theorem Formed.apart {p : Lexeme} (hp : p.Formed (l.text ++ rest)) (hl : l.Formed rest) :
    p.Apart l := by
  have hblanks : ¬ (p.isBlank = true ∧ l.isBlank = true) := by
    rintro ⟨hpblank, hlblank⟩
    obtain ⟨-, -, havoids⟩ := hp.of_isBlank hpblank
    obtain ⟨hne, hall, -⟩ := hl.of_isBlank hlblank
    obtain ⟨c, s, htext⟩ := List.exists_cons_of_ne_nil hne
    have hc := hall c (by simp [htext])
    simp [htext, hc] at havoids
  refine ⟨?_, ?_, ?_, hblanks, ?_⟩
  · rintro ⟨hpword, hlword⟩
    obtain ⟨-, -, -, -, -, havoids⟩ := hp.of_word hpword
    obtain ⟨c, s, htext, hc, -⟩ := hl.of_word hlword
    simp [htext, Script.isWordContinue_of_isWordStart hc] at havoids
  · rintro ⟨hpword, hlnumber⟩
    obtain ⟨-, -, -, -, -, havoids⟩ := hp.of_word hpword
    obtain ⟨c, s, htext, hc, -⟩ := hl.of_number hlnumber
    simp [htext, Script.isWordContinue_of_isAnyDigit hc] at havoids
  · rintro ⟨hpnumber, hlnumber⟩
    obtain ⟨-, -, -, -, -, havoids, -⟩ := hp.of_number hpnumber
    obtain ⟨c, s, htext, hc, -⟩ := hl.of_number hlnumber
    simp [htext, hc] at havoids
  · intro hlblank hline
    have hpblank : p.isBlank = false := by simpa [hlblank] using hblanks
    have hne : l.text ++ rest ≠ [] := by simp [(hl.of_isBlank hlblank).1]
    exact hp.last_not_blank hline hpblank hne

end Lexeme

/-- Every token, in front of the source text that follows it, looks as its kind says
    and ends where its kind says. So two words, two numbers, two runs of blanks, or a
    word and a number never stand side by side. -/
theorem tokenize_lexical_grammar (source : Text) :
    (∀ before t after, tokenize source = before ++ t :: after →
      source = before.flatMap (·.text) ++ t.text ++ after.flatMap (·.text) ∧
      t.Formed (after.flatMap (·.text))) ∧
    ∀ before p t after, tokenize source = before ++ p :: t :: after → p.Apart t.toLexeme := by
  have hformed : ∀ before t after, tokenize source = before ++ t :: after →
      t.Formed (after.flatMap (·.text)) := fun _ _ _ h => (cuts_of_tokenize h).formed
  constructor
  · intro before t after h
    exact ⟨source_of_tokenize h, hformed before t after h⟩
  · intro before p t after h
    have ht : tokenize source = (before ++ [p]) ++ t :: after := by simpa using h
    have hp := hformed before p (t :: after) h
    rw [List.flatMap_cons] at hp
    exact hp.apart (hformed _ t after ht)

/-- A string that ends in two backslashes, and a comment whose only star belongs to
    its opening. -/
def misleadingEnds : Text := "\"\\\\\" /*/"

theorem tokenize_lexical_grammar_misleadingEnds :
    ∃ p l t, tokenize misleadingEnds = [p, l, t] ∧ p.text = "\"\\\\\"".toList ∧
      t.text = "/*/".toList ∧
      Literal.StringEnds '"' "\\\\\"" " /*/" ∧ Literal.CommentEnds "/" [] ∧ p.Apart l.toLexeme := by
  let p : Token := ⟨⟨.string, "\"\\\\\""⟩, ⟨1, 1, 1, 4⟩⟩
  let l : Token := ⟨⟨.symbol, " "⟩, ⟨1, 5, 1, 5⟩⟩
  let t : Token := ⟨⟨.comment, "/*/"⟩, ⟨1, 6, 1, 8⟩⟩
  have h : tokenize misleadingEnds = [p, l, t] := by decide +kernel
  obtain ⟨hformed, hapart⟩ := tokenize_lexical_grammar misleadingEnds
  refine ⟨p, l, t, h, rfl, rfl, ?_, ?_, hapart [] p l [t] h⟩
  · obtain ⟨quote, s, htext, -, hends⟩ := (hformed [] p [l, t] h).2
    obtain ⟨rfl, rfl⟩ := List.cons.inj htext
    exact hends
  · obtain ⟨s, htext, -⟩ | ⟨s, htext, hends⟩ := (hformed [p, l] t [] h).2
    · exact absurd (List.cons.inj (List.cons.inj htext).2).1 (by decide)
    · obtain rfl := (List.cons.inj (List.cons.inj htext).2).2
      exact hends

end BanglaSource
