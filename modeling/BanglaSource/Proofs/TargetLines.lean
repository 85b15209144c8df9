-- SUMMARY: The target text has the lines of its source, so that a line reported for it is a line of the source.
import BanglaSource.Pipeline
import BanglaSource.Proofs.LineIndex
import BanglaSource.Proofs.Relexing
import BanglaSource.Proofs.TokenPlaces

/-!
# Lines of the target text

Words and numbers hold no line feeds, and neither do their targets; other tokens
are their own targets. So the piece that stands for a token has the line feeds of
the token, and starts on its line. A backend reports a byte offset of the target
text, and the line that is computed from it is one of the source.
-/
namespace BanglaSource

/-! ## Line feeds -/

theorem Literal.lineFeeds_of_isPlain {s : Text} (h : ∀ c ∈ s, isPlain c = true) :
    Text.lineFeeds s = 0 := by
  rw [Text.lineFeeds, List.count_eq_zero]
  intro hmem
  exact absurd (h _ hmem) (by decide)

namespace Lexer

theorem Cuts.lineFeeds_target {inValue : Bool} {l : Lexeme} {rest : Text} (keepNames : Bool)
    (h : Cuts inValue l rest) :
    Text.lineFeeds (l.target keepNames) = Text.lineFeeds l.text := by
  rcases h.isPlain_or_target_eq keepNames with ⟨htext, htarget⟩ | hsame
  · rw [Literal.lineFeeds_of_isPlain htext, Literal.lineFeeds_of_isPlain htarget]
  · rw [hsame]

/-- A piece that is not the text of its lexeme stays on one line. -/
theorem Cuts.lineFeeds_of_prefix {inValue : Bool} {l : Lexeme} {rest inside : Text}
    {keepNames : Bool} (h : Cuts inValue l rest) (hinside : inside <+: l.target keepNames) :
    l.target keepNames = l.text ∨ Text.lineFeeds inside = 0 := by
  rcases h.isPlain_or_target_eq keepNames with ⟨-, htarget⟩ | hsame
  · exact .inr (Literal.lineFeeds_of_isPlain fun c hc => htarget c (hinside.subset hc))
  · exact .inl hsame

end Lexer

section
variable {source : Text} {before after : List Token} {t : Token}

/-- Tokens of a source have as many line feeds as their pieces. -/
theorem lineFeeds_flatMap_target (keepNames : Bool) {ts : List Token}
    (h : ∀ t ∈ ts, t ∈ tokenize source) :
    Text.lineFeeds (ts.flatMap (·.target keepNames)) = Text.lineFeeds (ts.flatMap (·.text)) := by
  induction ts with
  | nil => rfl
  | cons t ts ih =>
    rw [List.forall_mem_cons] at h
    obtain ⟨_, _, hcut⟩ := cuts_of_mem_tokenize h.1
    simp only [List.flatMap_cons, Text.lineFeeds_append, hcut.lineFeeds_target, ih h.2]

/-! ## Pieces -/

theorem targetText_eq_flatMap (keepNames : Bool) (source : Text) :
    targetText keepNames source = (tokenize source).flatMap (·.target keepNames) := by
  rw [targetText, targetLexemes, ← map_toLexeme_tokenize, List.flatMap_map]

/-- A byte in the piece of a token lies on the line where the token starts, and as many
    lines below as the piece has line feeds before it. -/
theorem lineOfOffset_target {keepNames : Bool} {inside : Text} {offset : Nat}
    (h : tokenize source = before ++ t :: after)
    (hoffset : Text.CharAt (before.flatMap (·.target keepNames) ++ t.target keepNames)
      (before.flatMap (·.target keepNames) ++ inside) offset) (name : Text) :
    SourceFile.lineOfOffset ⟨name, targetText keepNames source⟩ offset =
      t.span.startLine + Text.lineFeeds inside := by
  have hfeeds : Text.lineFeeds (before.flatMap (·.target keepNames)) =
      Text.lineFeeds (before.flatMap (·.text)) :=
    lineFeeds_flatMap_target keepNames fun t ht => h ▸ List.mem_append_left _ ht
  have hwhole : (targetText keepNames source).CharAt
      (before.flatMap (·.target keepNames) ++ inside) offset := by
    obtain ⟨c, hprefix, hbounds⟩ := hoffset
    refine ⟨c, hprefix.trans ?_, hbounds⟩
    simp [targetText_eq_flatMap, h]
  rw [SourceFile.lineOfOffset_of_charAt hwhole, startLine_of_tokenize h, Text.lineFeeds_append,
    hfeeds, Nat.add_assoc]

end

/-! ## Lines -/

/-- The target text has as many line feeds as the source, and so have the texts before
    a token and before its piece. A byte of the first character of the piece lies on
    the line on which the token starts. So does one further inside, apart from the line
    feeds in between, and there are none unless the piece is the token itself. The line
    of a backend's refusal is the one of its offset. Past the end it is the last line
    of the source. -/
theorem lineOfOffset_targetText (keepNames : Bool) (source : Text) :
    Text.lineFeeds (targetText keepNames source) = Text.lineFeeds source ∧
    (∀ before t after, tokenize source = before ++ t :: after →
      Text.lineFeeds (before.flatMap (·.target keepNames)) =
        Text.lineFeeds (before.flatMap (·.text)) ∧
      t.target keepNames ≠ [] ∧
      ∀ inside offset,
        Text.CharAt (before.flatMap (·.target keepNames) ++ t.target keepNames)
          (before.flatMap (·.target keepNames) ++ inside) offset →
        (t.target keepNames = t.text ∨ Text.lineFeeds inside = 0) ∧
        (∀ name, SourceFile.lineOfOffset ⟨name, targetText keepNames source⟩ offset =
          t.span.startLine + Text.lineFeeds inside) ∧
        ∀ (backend : Backend) (file message : Text),
          backend (targetText keepNames source) file = .error ⟨message, some offset⟩ →
          Pipeline.compile backend source file keepNames =
            .error ⟨some (t.span.startLine + Text.lineFeeds inside), message⟩) ∧
    ∀ name offset, Text.byteLength (targetText keepNames source) ≤ offset →
      SourceFile.lineOfOffset ⟨name, targetText keepNames source⟩ offset =
        1 + Text.lineFeeds source := by
  have hfeeds : Text.lineFeeds (targetText keepNames source) = Text.lineFeeds source := by
    rw [targetText_eq_flatMap, lineFeeds_flatMap_target keepNames fun _ ht => ht,
      ← eq_flatMap_tokenize]
  refine ⟨hfeeds, ?_, fun name offset hoffset => ?_⟩
  · intro before t after h
    have hcut := cuts_of_tokenize h
    refine ⟨lineFeeds_flatMap_target keepNames fun t ht => h ▸ List.mem_append_left _ ht, ?_, ?_⟩
    · obtain ⟨_, _, _, _, -, htarget, -⟩ := Lexer.first_target keepNames hcut
      simp [htarget]
    · intro inside offset hoffset
      have hline := lineOfOffset_target h hoffset
      have hinside : inside <+: t.target keepNames := by
        obtain ⟨c, hprefix, -⟩ := hoffset
        rw [List.append_assoc, List.prefix_append_right_inj] at hprefix
        exact (List.prefix_append _ _).trans hprefix
      refine ⟨hcut.lineFeeds_of_prefix hinside, hline, fun backend file message hrefusal => ?_⟩
      simp [Pipeline.compile, hrefusal, Failure.ofRefusal, hline]
  · rw [SourceFile.lineOfOffset_of_byteLength_le hoffset, hfeeds]

/-- A string over two lines, and a keyword and a number behind it. -/
def stringOverLines : Text := "'ক\nখ' ফেরত ১"

/-- A refusal at the target of the keyword, at byte 10, names the line of the keyword. -/
theorem lineOfOffset_targetText_stringOverLines :
    ∃ before t after, tokenize stringOverLines = before ++ t :: after ∧
      t.text = "ফেরত".toList ∧ t.span.startLine = 2 ∧ t.target false = "return".toList ∧
      Text.CharAt (before.flatMap (·.target false) ++ t.target false)
        (before.flatMap (·.target false) ++ []) 10 ∧
      Pipeline.compile (fun _ _ => .error ⟨"unexpected", some 10⟩) stringOverLines "main" false =
        .error ⟨some 2, "unexpected"⟩ := by
  let t : Token := ⟨⟨.word, "ফেরত"⟩, ⟨2, 4, 2, 7⟩⟩
  have h : tokenize stringOverLines =
      (tokenize stringOverLines).take 2 ++ t :: (tokenize stringOverLines).drop 3 := by
    decide +kernel
  have hoffset : Text.CharAt
      (((tokenize stringOverLines).take 2).flatMap (·.target false) ++ t.target false)
      (((tokenize stringOverLines).take 2).flatMap (·.target false) ++ []) 10 :=
    ⟨'r', by decide +kernel⟩
  obtain ⟨-, hpieces, -⟩ := lineOfOffset_targetText false stringOverLines
  obtain ⟨-, -, hpiece⟩ := hpieces _ t _ h
  obtain ⟨-, -, hrefusal⟩ := hpiece [] 10 hoffset
  exact ⟨_, t, _, h, rfl, rfl, by decide +kernel, hoffset, hrefusal _ "main" "unexpected" rfl⟩

end BanglaSource
