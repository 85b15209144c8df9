-- SUMMARY: The span of every token counts the line feeds and characters before its first and its last character.
import BanglaSource.Proofs.FormatRoundTrip
import BanglaSource.Proofs.TokenPlaces
import Mathlib.Data.List.DropRight

/-!
# Spans of tokens

The lexer carries a line and a column along the text, one character at a time. Both
can be read off the text that has been passed: its line feeds, and the characters
behind the last of them. A span is then told by the text before its token and by the
token without its last character. The index of byte offsets, which knows nothing of
columns, gives the same lines.
-/
namespace BanglaSource

/-! ## Places read off a text -/

/-- The characters behind the last line feed. -/
def Text.lastLine (s : Text) : Text :=
  s.rtakeWhile (· != '\n')

theorem Text.lastLine_concat (s : Text) (c : Char) :
    lastLine (s ++ [c]) = if c = '\n' then [] else lastLine s ++ [c] := by
  rw [lastLine, List.rtakeWhile_concat]
  by_cases hfeed : c = '\n' <;> simp [hfeed, lastLine]

theorem Text.lineFeeds_concat (s : Text) (c : Char) :
    lineFeeds (s ++ [c]) = if c = '\n' then lineFeeds s + 1 else lineFeeds s := by
  rw [lineFeeds_append, lineFeeds, lineFeeds, List.count_singleton]
  by_cases hfeed : c = '\n' <;> simp [hfeed]

namespace Position

/-- The place behind a text: one line for each line feed, and one column for each
    character behind the last of them. -/
theorem start_after (s : Text) :
    start.after s = ⟨1 + Text.lineFeeds s, 1 + (Text.lastLine s).length⟩ := by
  induction s using List.reverseRecOn with
  | nil => rfl
  | append_singleton s c ih =>
    have hnext : start.after (s ++ [c]) = (start.after s).next c := after_append ..
    rw [hnext, ih, next, Text.lineFeeds_concat, Text.lastLine_concat]
    by_cases hfeed : c = '\n' <;> simp [hfeed, Nat.add_assoc]

/-- No line and no column passes the number of characters by more than one. -/
theorem start_after_le (s : Text) :
    (start.after s).line ≤ 1 + s.length ∧ (start.after s).column ≤ 1 + s.length := by
  have hfeeds : Text.lineFeeds s ≤ s.length := List.count_le_length
  have hlast : (Text.lastLine s).length ≤ s.length := (List.rtakeWhile_suffix _ _).length_le
  rw [start_after]
  dsimp only
  omega

end Position

/-! ## Spans -/

section
variable {source inside : Text} {before after : List Token} {t : Token} {last : Char}

theorem exists_last_of_tokenize (h : tokenize source = before ++ t :: after) :
    ∃ inside last, t.text = inside ++ [last] := by
  have hne : t.text ≠ [] := (cuts_of_tokenize h).text_ne_nil
  exact ⟨t.text.dropLast, t.text.getLast hne, (List.dropLast_append_getLast hne).symm⟩

theorem startColumn_of_tokenize (h : tokenize source = before ++ t :: after) :
    t.span.startColumn = 1 + (Text.lastLine (before.flatMap (·.text))).length := by
  rw [span_of_tokenize h, Position.start_after]
  rfl

/-- A line feed at the end of a token counts for the line on which the token ends. -/
theorem endLine_of_tokenize (h : tokenize source = before ++ t :: after)
    (hlast : t.text = inside ++ [last]) :
    t.span.endLine = 1 + Text.lineFeeds (before.flatMap (·.text) ++ inside) +
      if last = '\n' then 1 else 0 := by
  have hend : t.span.endLine = 1 + Text.lineFeeds (before.flatMap (·.text) ++ t.text) := by
    rw [span_of_tokenize h, Position.start_after, Position.start_after]
    rfl
  rw [hend, hlast, ← List.append_assoc, Text.lineFeeds_concat]
  split <;> omega

/-- The column before the place behind a token is the one of its last character, unless
    there is none on that line. -/
theorem endColumn_of_tokenize (h : tokenize source = before ++ t :: after)
    (hlast : t.text = inside ++ [last]) :
    t.span.endColumn =
      1 + if last = '\n' then 0 else
        (Text.lastLine (before.flatMap (·.text) ++ inside)).length := by
  have hend : t.span.endColumn =
      max (1 + (Text.lastLine (before.flatMap (·.text) ++ t.text)).length - 1) 1 := by
    rw [span_of_tokenize h, Position.start_after, Position.start_after]
    rfl
  rw [hend, hlast, ← List.append_assoc, Text.lastLine_concat]
  split
  · rfl
  · rw [List.length_append, List.length_singleton]
    omega

/-- The first byte of a token lies on the line on which the token starts. -/
theorem lineOfOffset_of_tokenize (h : tokenize source = before ++ t :: after) (name : Text) :
    SourceFile.lineOfOffset ⟨name, source⟩ (Text.byteLength (before.flatMap (·.text))) =
      t.span.startLine := by
  obtain ⟨c, s, htext⟩ := List.exists_cons_of_ne_nil (cuts_of_tokenize h).text_ne_nil
  have hsource := source_of_tokenize h
  rw [htext, List.append_assoc] at hsource
  have hchar : source.CharAt (before.flatMap (·.text))
      (Text.byteLength (before.flatMap (·.text))) := by
    refine ⟨c, ?_, Nat.le_refl _, Nat.lt_add_of_pos_right c.utf8Size_pos⟩
    rw [hsource]
    simp
  rw [SourceFile.lineOfOffset_of_charAt hchar, startLine_of_tokenize h]

/-- Spans in short sources are in range. -/
theorem inRange_of_tokenize (h : tokenize source = before ++ t :: after)
    (hsource : source.length < 2 ^ 32 - 1) : t.span.InRange := by
  have hlength := congrArg List.length (source_of_tokenize h)
  have hfirst := Position.start_after_le (before.flatMap (·.text))
  have hlast := Position.start_after_le (before.flatMap (·.text) ++ t.text)
  simp only [List.length_append] at hlength hlast
  rw [span_of_tokenize h]
  simp only [Span.InRange, Span.between]
  omega

end

/-- The span of a token, told by the text before it. The token starts on the line that
    counts the line feeds there, which is also the one that the index of byte offsets
    gives for its first byte, and in the column that counts the characters behind the
    last of them. It ends at the place of its last character, told in the same way, or
    in column one of the next line if that is a line feed. In a short source the span is
    in range, and so are all lines and columns on the way. -/
theorem tokenize_spans_exact (source : Text) (before after : List Token) (t : Token)
    (h : tokenize source = before ++ t :: after) :
    let front := before.flatMap (·.text)
    source = front ++ t.text ++ after.flatMap (·.text) ∧
    t.span.startLine = 1 + Text.lineFeeds front ∧
    (∀ name, SourceFile.lineOfOffset ⟨name, source⟩ (Text.byteLength front) = t.span.startLine) ∧
    t.span.startColumn = 1 + (Text.lastLine front).length ∧
    (∃ inside last, t.text = inside ++ [last] ∧
      (last ≠ '\n' →
        t.span.endLine = 1 + Text.lineFeeds (front ++ inside) ∧
        t.span.endColumn = 1 + (Text.lastLine (front ++ inside)).length) ∧
      (last = '\n' →
        t.span.endLine = 1 + Text.lineFeeds (front ++ inside) + 1 ∧ t.span.endColumn = 1)) ∧
    (source.length < 2 ^ 32 - 1 → t.span.InRange ∧
      ∀ passed, passed <+: source →
        (Position.start.after passed).line < 2 ^ 32 ∧
        (Position.start.after passed).column < 2 ^ 32) := by
  obtain ⟨inside, last, hlast⟩ := exists_last_of_tokenize h
  have hline := endLine_of_tokenize h hlast
  have hcolumn := endColumn_of_tokenize h hlast
  refine ⟨source_of_tokenize h, startLine_of_tokenize h, lineOfOffset_of_tokenize h,
    startColumn_of_tokenize h, ⟨inside, last, hlast, fun hother => ?_, fun hfeed => ?_⟩,
    fun hshort => ⟨inRange_of_tokenize h hshort, fun passed hpassed => ?_⟩⟩
  · rw [if_neg hother] at hline hcolumn
    exact ⟨hline, hcolumn⟩
  · rw [if_pos hfeed] at hline hcolumn
    exact ⟨hline, hcolumn⟩
  · have hlength := hpassed.length_le
    have hplace := Position.start_after_le passed
    omega

/-- A word, a line feed, and a string that is never closed and ends with a line feed. -/
def openString : Text := "ক\n 'খগ\n"

/-- The string starts at byte 5, in column two of the second line, and ends at the
    start of the third line. -/
theorem tokenize_spans_exact_openString :
    ∃ before t after, tokenize openString = before ++ t :: after ∧
      t.text = "'খগ\n".toList ∧ t.span = ⟨2, 2, 3, 1⟩ ∧
      before.flatMap (·.text) = "ক\n ".toList ∧
      SourceFile.lineOfOffset ⟨"main", openString⟩ 5 = t.span.startLine ∧
      t.span.startColumn = 1 + (Text.lastLine "ক\n ").length ∧
      t.span.endLine = 1 + Text.lineFeeds "ক\n 'খগ" + 1 ∧ t.span.InRange := by
  let t : Token := ⟨⟨.string, "'খগ\n"⟩, ⟨2, 2, 3, 1⟩⟩
  have h : tokenize openString =
      (tokenize openString).take 2 ++ t :: (tokenize openString).drop 3 := by
    decide +kernel
  have hfront : ((tokenize openString).take 2).flatMap (·.text) = "ক\n ".toList := by
    decide +kernel
  obtain ⟨-, -, hoffset, hcolumn, ⟨inside, last, hlast, -, hfeed⟩, hrange⟩ :=
    tokenize_spans_exact openString _ _ t h
  rw [hfront] at hoffset hcolumn hfeed
  obtain ⟨rfl, rfl⟩ : inside = "'খগ".toList ∧ last = '\n' := by
    have hinit := congrArg List.dropLast hlast
    have hend := congrArg List.getLast? hlast
    simp only [List.dropLast_concat, List.getLast?_concat] at hinit hend
    exact ⟨hinit.symm, (Option.some.inj hend).symm⟩
  exact ⟨_, t, _, h, rfl, rfl, hfront, hoffset "main", hcolumn, (hfeed rfl).1,
    (hrange (by decide)).1⟩

end BanglaSource
