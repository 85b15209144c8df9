-- SUMMARY: Every stored diagnostic quotes the line of the bracket or danda that it is about, and its column is the one of that character.
import BanglaSource.Proofs.BracketFindings
import BanglaSource.Proofs.TokenSpans

/-!
# Places of findings

Spans come from the positions that tokens have in the text. The quoted line comes
from the index of byte offsets, and loses a carriage return at its end. Both are read
off one decomposition of the source: what stands before the line, the line, and what
stands behind it. Brackets and dandas are no carriage returns, so they stay.
-/
namespace BanglaSource

/-! ## Places of tokens -/

variable {source : Text} {before after : List Token} {t : Token}

/-- A symbol of one character stands on its line at its column. -/
theorem line?_of_tokenize {c : Char} (h : tokenize source = before ++ t :: after)
    (htext : t.text = [c]) (hfeed : c ≠ '\n') (hreturn : c ≠ '\r') (name : Text) :
    ∃ content, SourceFile.line? ⟨name, source⟩ t.span.startLine = some content ∧
      ∃ n, t.span.startColumn = n + 1 ∧ content[n]? = some c := by
  obtain ⟨front, left, right, back, hbefore, hafter, hline⟩ :=
    Text.exists_isLine (before.flatMap (·.text)) (after.flatMap (·.text))
  have hsource : source = front ++ (left ++ c :: right ++ back) := by
    rw [source_of_tokenize h, htext, hbefore, hafter]
    simp
  have hwhole : Text.IsLine front (left ++ c :: right) back := by
    refine ⟨hline.starts, ?_, hline.stops⟩
    have hnone := hline.not_mem
    simp only [List.mem_append, List.mem_cons, not_or] at hnone ⊢
    exact ⟨hnone.1, Ne.symm hfeed, hnone.2⟩
  have hstart : t.span.startLine = 1 + Text.lineFeeds front := by
    rw [startLine_of_tokenize h, hbefore, hline.lineFeeds_left]
  have hcolumn : t.span.startColumn = left.length + 1 := by
    rw [span_of_tokenize h, hbefore, Nat.add_comm]
    exact Position.column_start_after hline
  refine ⟨SourceFile.stripReturn (left ++ c :: right), ?_, left.length, hcolumn, ?_⟩
  · rw [hstart, hsource, SourceFile.line?_of_isLine hwhole]
  · exact SourceFile.getElem?_stripReturn (by simp) hreturn

namespace Validation

open BanglaSource.Bracket (HasOpener HasCloser)

/-! ## What a diagnostic is about -/

/-- The character that a diagnostic on the token `t` is about, which stands between
    `before` and `after`. -/
inductive About (file : SourceFile) (before : List Token) (t : Token) (after : List Token) :
    Diagnostic → Char → Prop where
  /-- A closer that no opener before it is the partner of. -/
  | unmatched {b : Bracket} : ¬ HasOpener b before →
      About file before t after (unmatchedFinding file t b) b.pair.2
  /-- An opener that no closer behind it is the partner of. -/
  | unclosed {b : Bracket} : ¬ HasCloser b after →
      About file before t after (unclosedFinding file t b) b.pair.1
  | danda : About file before t after (dandaFinding file t) '\u0964'

variable {file : SourceFile} {d : Diagnostic} {c : Char} {ts : List Token}

theorem About.span_eq (h : About file before t after d c) : d.span = t.span := by
  cases h <;> rfl

theorem About.sourceLine_eq (h : About file before t after d c) :
    d.sourceLine = (file.line? t.span.startLine).getD [] := by
  cases h <;> rfl

theorem About.char_ne (h : About file before t after d c) : c ≠ '\n' ∧ c ≠ '\r' := by
  cases h with
  | @unmatched b => cases b <;> decide
  | @unclosed b => cases b <;> decide
  | danda => decide

theorem about_of_finding? (h : finding? file before t = some d) (after : List Token) :
    ∃ c, t.kind = .symbol ∧ t.text = [c] ∧ About file before t after d c := by
  rw [finding?] at h
  split at h
  · next hdanda =>
    obtain rfl := Option.some.inj h
    exact ⟨_, hdanda.1, hdanda.2, .danda⟩
  · obtain ⟨b, hfind, rfl⟩ := Option.map_eq_some_iff.1 h
    have hclosing : b.side? t = some .closing ∧ ¬ HasOpener b before := by
      simpa using List.find?_some hfind
    obtain ⟨hkind, htext⟩ :=
      (Mark.ofToken?_eq_some_iff t _).1 ((side?_eq_closing_iff b t).1 hclosing.1)
    have hchar : b.pair.2 = b.closer := congrArg Prod.snd b.pair_eq
    exact ⟨b.pair.2, hkind, htext.trans (by rw [hchar]; rfl), .unmatched hclosing.2⟩

theorem exists_of_mem_findingsBehind (h : d ∈ findingsBehind file before ts) :
    ∃ front t back, ts = front ++ t :: back ∧ finding? file (before ++ front) t = some d := by
  induction ts generalizing before with
  | nil => cases h
  | cons t ts ih =>
    rw [findingsBehind_cons, List.mem_append, Option.mem_toList] at h
    rcases h with h | h
    · exact ⟨[], t, ts, rfl, by simpa using h⟩
    · obtain ⟨front, u, back, rfl, hfinding⟩ := ih h
      exact ⟨t :: front, u, back, rfl, by simpa using hfinding⟩

theorem about_of_mem_leftOpen (h : d ∈ leftOpen file ts) :
    ∃ before t after c, ts = before ++ t :: after ∧ t.kind = .symbol ∧ t.text = [c] ∧
      About file before t after d c := by
  obtain ⟨b, -, hd⟩ := List.mem_filterMap.1 h
  obtain ⟨t, hhead, rfl⟩ := Option.map_eq_some_iff.1 hd
  obtain ⟨before, after, hts, hside, hcloser⟩ :=
    Bracket.exists_of_mem_unclosed (List.mem_of_head? hhead)
  obtain ⟨hkind, htext⟩ := (Mark.ofToken?_eq_some_iff t _).1 ((side?_eq_opening_iff b t).1 hside)
  have hchar : b.pair.1 = b.opener := congrArg Prod.fst b.pair_eq
  exact ⟨before, t, after, b.pair.1, hts, hkind, htext.trans (by rw [hchar]; rfl),
    .unclosed hcloser⟩

/-- A stored diagnostic is about a symbol of one character. -/
theorem about_of_mem_stored {source name : Text} (h : d ∈ (validate source name).stored) :
    ∃ before t after c, tokenize source = before ++ t :: after ∧ t.kind = .symbol ∧
      t.text = [c] ∧ About ⟨name, source⟩ before t after d c := by
  rw [validate_eq, Report.stored_ofList] at h
  rcases List.mem_append.1 (List.mem_of_mem_take h) with hmem | hmem
  · obtain ⟨before, t, after, htokens, hfinding⟩ := exists_of_mem_findingsBehind hmem
    obtain ⟨c, habout⟩ := about_of_finding? hfinding after
    exact ⟨before, t, after, c, htokens, habout⟩
  · exact about_of_mem_leftOpen hmem

/-- A stored diagnostic quotes the line on which its span starts. It is about a symbol
    of one character, which its span is the one of, and which stands in the quoted line
    at the column where the span starts. In a short source the span is in range. -/
theorem stored_points_at_character (source name : Text) (d : Diagnostic)
    (h : d ∈ (validate source name).stored) :
    SourceFile.line? ⟨name, source⟩ d.span.startLine = some d.sourceLine ∧
    (∃ before t after c n, tokenize source = before ++ t :: after ∧ t.kind = .symbol ∧
      t.text = [c] ∧ About ⟨name, source⟩ before t after d c ∧ d.span = t.span ∧
      d.span.startColumn = n + 1 ∧ d.sourceLine[n]? = some c) ∧
    (source.length < 2 ^ 32 - 1 → d.span.InRange) := by
  obtain ⟨before, t, after, c, htokens, hkind, htext, habout⟩ := about_of_mem_stored h
  obtain ⟨content, hline, n, hcolumn, hchar⟩ :=
    line?_of_tokenize htokens htext habout.char_ne.1 habout.char_ne.2 name
  have hquoted : d.sourceLine = content := by rw [habout.sourceLine_eq, hline, Option.getD_some]
  rw [habout.span_eq, hquoted]
  exact ⟨hline, ⟨before, t, after, c, n, htokens, hkind, htext, habout, rfl, hcolumn, hchar⟩,
    inRange_of_tokenize htokens⟩

/-- A string over two lines, a closer at the end of a line, and a danda. -/
def closerBehindString : Text := "'ক\nখ' )\r\n।"

/-- The closer is the fourth character of the second line, whose carriage return is not
    quoted. -/
theorem stored_points_at_character_closerBehindString :
    ∃ d ∈ (validate closerBehindString "main").stored,
      d.span = ⟨2, 4, 2, 4⟩ ∧ d.sourceLine = "খ' )".toList ∧
      SourceFile.line? ⟨"main", closerBehindString⟩ 2 = some d.sourceLine ∧
      (∃ before t after c, tokenize closerBehindString = before ++ t :: after ∧
        About ⟨"main", closerBehindString⟩ before t after d c ∧ d.sourceLine[3]? = some c) ∧
      d.span.InRange := by
  let d := unmatched ⟨"main", closerBehindString⟩ .round ⟨2, 4, 2, 4⟩
  have hmem : d ∈ (validate closerBehindString "main").stored := by decide +kernel
  obtain ⟨hline, ⟨before, t, after, c, n, htokens, -, -, habout, -, hcolumn, hchar⟩, hrange⟩ :=
    stored_points_at_character closerBehindString "main" d hmem
  obtain rfl : 3 = n := Nat.succ.inj hcolumn
  exact ⟨d, hmem, rfl, by decide +kernel, hline, ⟨before, t, after, c, htokens, habout, hchar⟩,
    hrange (by decide)⟩

end Validation
end BanglaSource
