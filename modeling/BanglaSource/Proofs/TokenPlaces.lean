-- SUMMARY: Every token in its source: what stands around it, the cut that it is, and the line and column at which it starts.
import BanglaSource.Proofs.Cuts
import BanglaSource.Proofs.LineIndex

/-!
# Tokens in their source

A token stands between the texts of the tokens before it and behind it. It is the
lexeme that the grammar cuts off there, and its span starts where the text before
it ends.
-/
namespace BanglaSource

/-! ## Lines and columns -/

theorem Position.line_after (p : Position) (s : Text) :
    (p.after s).line = p.line + Text.lineFeeds s := by
  induction s generalizing p with
  | nil => rfl
  | cons c s ih =>
    have hafter : p.after (c :: s) = (p.next c).after s := rfl
    rw [hafter, ih, next, Text.lineFeeds, Text.lineFeeds, List.count_cons]
    by_cases hfeed : c = '\n'
    · simp only [hfeed, if_true, beq_self_eq_true]
      omega
    · simp [hfeed]

theorem Position.column_after {s : Text} (h : '\n' ∉ s) (p : Position) :
    (p.after s).column = p.column + s.length := by
  induction s generalizing p with
  | nil => rfl
  | cons c s ih =>
    rw [List.mem_cons, not_or] at h
    have hafter : p.after (c :: s) = (p.next c).after s := rfl
    have hnext : (p.next c).column = p.column + 1 := by rw [next, if_neg (Ne.symm h.1)]
    rw [hafter, ih h.2, hnext, List.length_cons]
    omega

/-- The column counts the characters from the start of the line. -/
theorem Position.column_start_after {before left right after : Text}
    (h : Text.IsLine before (left ++ right) after) :
    (start.after (before ++ left)).column = 1 + left.length := by
  have hbefore : (start.after before).column = 1 := by
    rcases h.starts with rfl | ⟨s, rfl⟩
    · rfl
    · rw [after_append]
      rfl
  rw [after_append, column_after fun hmem => h.not_mem (List.mem_append_left right hmem), hbefore]

namespace Lexer

/-! ## Lexemes among others -/

@[simp] theorem textOf_append (ls ms : List Lexeme) : textOf (ls ++ ms) = textOf ls ++ textOf ms :=
  List.flatMap_append

theorem textOf_map_toLexeme (ts : List Token) :
    textOf (ts.map Token.toLexeme) = ts.flatMap (·.text) := by
  simp [textOf, List.flatMap_map]

/-- Lexemes that cut a text cut what is left of it in the middle. -/
theorem CutsAll.of_append {inValue : Bool} {before after : List Lexeme} {rest : Text}
    (h : CutsAll inValue (before ++ after) rest) :
    CutsAll (valueAfter inValue before) after rest := by
  induction before generalizing inValue with
  | nil => exact h
  | cons l before ih =>
    cases h with
    | cons _ hcuts => exact ih hcuts

theorem place_append (start : Position) (ls ms : List Lexeme) :
    place start (ls ++ ms) = place start ls ++ place (start.after (textOf ls)) ms := by
  induction ls generalizing start with
  | nil => rfl
  | cons l ls ih => simp [place, ih]

end Lexer

/-! ## Tokens among others -/

variable {source : Text} {before after : List Token} {t : Token}

theorem lexemes_of_tokenize (h : tokenize source = before ++ t :: after) :
    lexemes source =
      before.map Token.toLexeme ++ t.toLexeme :: after.map Token.toLexeme := by
  rw [← map_toLexeme_tokenize, h, List.map_append, List.map_cons]

/-- The texts of the tokens make up the source. -/
theorem eq_flatMap_tokenize (source : Text) : source = (tokenize source).flatMap (·.text) := by
  have htext : Lexer.textOf (lexemes source) = source := (Lexer.cutsAll_lexemesFrom true source).2
  rw [← map_toLexeme_tokenize, Lexer.textOf_map_toLexeme] at htext
  exact htext.symm

/-- The source is what stands before a token, the token, and what stands behind. -/
theorem source_of_tokenize (h : tokenize source = before ++ t :: after) :
    source = before.flatMap (·.text) ++ t.text ++ after.flatMap (·.text) := by
  have htext := eq_flatMap_tokenize source
  rw [h] at htext
  simpa using htext

/-- A token is a cut of the source, in front of the tokens behind it. -/
theorem cuts_of_tokenize (h : tokenize source = before ++ t :: after) :
    Lexer.Cuts (Lexer.valueAfter true (before.map Token.toLexeme)) t.toLexeme
      (after.flatMap (·.text)) := by
  have hcuts : Lexer.CutsAll true (lexemes source) [] := (Lexer.cutsAll_lexemesFrom true source).1
  rw [lexemes_of_tokenize h] at hcuts
  cases hcuts.of_append with
  | cons hcut _ => simpa [Lexer.textOf_map_toLexeme] using hcut

theorem cuts_of_mem_tokenize (h : t ∈ tokenize source) :
    ∃ inValue rest, Lexer.Cuts inValue t.toLexeme rest := by
  obtain ⟨before, after, htokens⟩ := List.append_of_mem h
  exact ⟨_, _, cuts_of_tokenize htokens⟩

/-- The span of a token lies between the place where the text before it ends and the
    place where the token ends. -/
theorem span_of_tokenize (h : tokenize source = before ++ t :: after) :
    t.span = .between (Position.start.after (before.flatMap (·.text)))
      (Position.start.after (before.flatMap (·.text) ++ t.text)) := by
  have hplace : tokenize source = Lexer.place .start (lexemes source) := rfl
  rw [lexemes_of_tokenize h, Lexer.place_append, Lexer.textOf_map_toLexeme, Lexer.place,
    h] at hplace
  have hlength : before.length =
      (Lexer.place .start (before.map Token.toLexeme)).length := by
    have hmap := congrArg List.length
      (Lexer.map_toLexeme_place .start (before.map Token.toLexeme))
    simpa using hmap.symm
  have htoken := (List.cons.inj (List.append_inj hplace hlength).2).1
  rw [htoken, Position.after_append]

theorem startLine_of_tokenize (h : tokenize source = before ++ t :: after) :
    t.span.startLine = 1 + Text.lineFeeds (before.flatMap (·.text)) := by
  rw [span_of_tokenize h]
  exact Position.line_after ..

end BanglaSource
