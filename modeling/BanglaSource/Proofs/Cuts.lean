-- SUMMARY: The lexical grammar as a relation, the lexer as its unique cut of a text, and losslessness.
import BanglaSource.Proofs.Characters
import BanglaSource.Token.Lexer

/-!
# Cuts

`Cuts inValue l rest` says in grammatical terms that `l` is the lexeme in front of
`rest`: it names for each kind of lexeme what the lexeme looks like and what
cannot follow it. A scan finds exactly the lexeme that the grammar allows, so a
text is cut in one way only. Whatever is known about a cut in one context can be
carried to another context in which the same conditions hold.
-/
namespace BanglaSource

namespace Lexer

/-! ## The grammar -/

/-- Whether `c` continues a number. -/
def isNumberPart (c : Char) : Bool :=
  Script.isAnyDigit c || c == '.'

/-- Whether `c` turns a slash before it into the start of a comment. -/
def opensComment (c : Char) : Bool :=
  c == '/' || c == '*'

/-- The lexeme in front of `rest`, in a place where a value is expected or not. -/
inductive Cuts (inValue : Bool) : Lexeme → Text → Prop
  | string {quote : Char} {s rest : Text} :
      Literal.isQuote quote = true → Literal.closeString quote (s ++ rest) = (s, rest) →
      Cuts inValue ⟨.string, quote :: s⟩ rest
  | lineComment {s rest : Text} :
      (∀ c ∈ s, (c != '\n') = true) → rest.Avoids (· != '\n') →
      Cuts inValue ⟨.comment, '/' :: '/' :: s⟩ rest
  | blockComment {s rest : Text} :
      Literal.closeComment (s ++ rest) = (s, rest) →
      Cuts inValue ⟨.comment, '/' :: '*' :: s⟩ rest
  | pattern {s rest : Text} :
      inValue = true → (s ++ rest).Avoids opensComment →
      Literal.closePattern (s ++ rest) = some (s, rest) →
      Cuts inValue ⟨.pattern, '/' :: s⟩ rest
  | slash {rest : Text} :
      rest.Avoids opensComment → (inValue = true → Literal.closePattern rest = none) →
      Cuts inValue ⟨.symbol, ['/']⟩ rest
  | number {c : Char} {s rest : Text} :
      Script.isAnyDigit c = true → (∀ d ∈ s, isNumberPart d = true) →
      rest.Avoids isNumberPart → Cuts inValue ⟨.number, c :: s⟩ rest
  | word {c : Char} {s rest : Text} :
      Script.isWordStart c = true → (∀ d ∈ s, Script.isWordContinue d = true) →
      rest.Avoids Script.isWordContinue → Cuts inValue ⟨.word, c :: s⟩ rest
  | blank {c : Char} {s rest : Text} :
      isBlank c = true → (∀ d ∈ s, isBlank d = true) → rest.Avoids isBlank →
      Cuts inValue ⟨.symbol, c :: s⟩ rest
  | symbol {c : Char} {rest : Text} :
      Literal.isQuote c = false → c ≠ '/' → Script.isAnyDigit c = false →
      Script.isWordStart c = false → isBlank c = false →
      Cuts inValue ⟨.symbol, [c]⟩ rest

/-! ## Scans and cuts -/

theorem mem_takeWhile {p : Char → Bool} {s : Text} {c : Char} (h : c ∈ s.takeWhile p) :
    p c = true :=
  List.all_eq_true.1 (List.all_takeWhile (p := p) (l := s)) c h

theorem run_eq {kind : Kind} {p : Char → Bool} {s rest : Text} (hs : ∀ c ∈ s, p c = true)
    (hrest : rest.Avoids p) : run kind p (s ++ rest) = ⟨kind, s, rest⟩ := by
  rw [run, Text.takeWhile_append_of_avoids hs hrest, Text.dropWhile_append_of_avoids hs hrest]

/-- The lexeme that a scan finds. -/
def Scan.lexeme (c : Char) (found : Scan) : Lexeme :=
  ⟨found.kind, c :: found.tail⟩

theorem scan_slash (inValue : Bool) (s : Text) : scan inValue '/' s = scanSlash inValue s := by
  simp [scan, show Literal.isQuote '/' = false by decide]

/-- A slash that opens no comment opens a pattern or stands alone. -/
theorem scanSlash_of_avoids {s : Text} (inValue : Bool) (h : s.Avoids opensComment) :
    scanSlash inValue s =
      if inValue then
        match Literal.closePattern s with
        | some (inside, rest) => ⟨.pattern, inside, rest⟩
        | none => single s
      else single s := by
  unfold scanSlash
  split
  · simp [opensComment] at h
  · simp [opensComment] at h
  · rfl

theorem cuts_scanSlash (inValue : Bool) (s : Text) :
    Cuts inValue ((scanSlash inValue s).lexeme '/') (scanSlash inValue s).rest := by
  by_cases hcomment : s.Avoids opensComment
  · rw [scanSlash_of_avoids inValue hcomment]
    split
    · next hvalue =>
      split
      · next inside rest h =>
        have happend := Literal.closePattern_append h
        exact .pattern hvalue (by rwa [happend]) (by rw [happend, h])
      · next h => exact .slash hcomment fun _ => h
    · next hvalue => exact .slash hcomment fun h => absurd h hvalue
  · cases s with
    | nil => simp at hcomment
    | cons c s =>
      simp only [Text.avoids_cons, opensComment, Bool.not_eq_false, Bool.or_eq_true,
        beq_iff_eq] at hcomment
      rcases hcomment with rfl | rfl
      · apply Cuts.lineComment (s := s.takeWhile (· != '\n'))
        · intro c hc
          exact mem_takeWhile (p := (· != '\n')) hc
        · exact Text.avoids_dropWhile _ _
      · exact .blockComment (by simp only [scanSlash]; rw [Literal.closeComment_append])

/-- What a scan finds is a cut of the text. -/
theorem cuts_scan (inValue : Bool) (c : Char) (s : Text) :
    Cuts inValue ((scan inValue c s).lexeme c) (scan inValue c s).rest := by
  unfold scan
  split
  · next hquote => exact .string hquote (by rw [Literal.closeString_append])
  · next hquote =>
    split
    · next hslash => subst hslash; exact cuts_scanSlash inValue s
    · next hslash =>
      split
      · next hdigit =>
        apply Cuts.number hdigit
        · intro d hd
          exact mem_takeWhile hd
        · exact Text.avoids_dropWhile _ _
      · next hdigit =>
        split
        · next hword =>
          apply Cuts.word hword
          · intro d hd
            exact mem_takeWhile hd
          · exact Text.avoids_dropWhile _ _
        · next hword =>
          split
          · next hblank =>
            apply Cuts.blank hblank
            · intro d hd
              exact mem_takeWhile hd
            · exact Text.avoids_dropWhile _ _
          · next hblank =>
            exact .symbol (by simpa using hquote) hslash (by simpa using hdigit)
              (by simpa using hword) (by simpa using hblank)

/-- A cut of the text is what a scan finds. -/
theorem Cuts.scan_eq {inValue : Bool} {kind : Kind} {c : Char} {s rest : Text}
    (h : Cuts inValue ⟨kind, c :: s⟩ rest) : scan inValue c (s ++ rest) = ⟨kind, s, rest⟩ := by
  cases h with
  | string hquote hclose => simp [scan, hquote, hclose]
  | lineComment hs hrest =>
    rename_i s
    have hline : ∀ c ∈ '/' :: s, (c != '\n') = true := by simpa using hs
    exact (scan_slash ..).trans (run_eq hline hrest)
  | blockComment hclose => simp [scan_slash, scanSlash, hclose]
  | pattern hvalue hcomment hclose =>
    subst hvalue
    simp [scan_slash, scanSlash_of_avoids true hcomment, hclose]
  | slash hcomment hclose =>
    rw [List.nil_append, scan_slash, scanSlash_of_avoids inValue hcomment]
    cases inValue with
    | false => rfl
    | true => simp [hclose rfl, single]
  | number hdigit hs hrest =>
    have hword := Script.isWordContinue_of_isAnyDigit hdigit
    have hslash : c ≠ '/' := Script.ne_of_isWordContinue hword (by decide)
    simp only [scan, Script.not_isQuote_of_isWordContinue hword, hslash, hdigit, if_true, if_false,
      Bool.false_eq_true]
    exact run_eq hs hrest
  | word hstart hs hrest =>
    have hword := Script.isWordContinue_of_isWordStart hstart
    have hslash : c ≠ '/' := Script.ne_of_isWordContinue hword (by decide)
    simp only [scan, Script.not_isQuote_of_isWordContinue hword, hslash,
      Script.not_isAnyDigit_of_isWordStart hstart, hstart, if_true, if_false, Bool.false_eq_true]
    exact run_eq hs hrest
  | blank hblank hs hrest =>
    have hword := Script.not_isWordContinue_of_isBlank hblank
    simp only [Script.isWordContinue, Bool.or_eq_false_iff] at hword
    have hslash : c ≠ '/' := ne_of_isBlank hblank (by decide)
    simp only [scan, not_isQuote_of_isBlank hblank, hslash, hword.1.1, hword.1.2, hblank, if_true,
      if_false, Bool.false_eq_true]
    exact run_eq hs hrest
  | symbol hquote hslash hdigit hword hblank =>
    simp [scan, single, hquote, hslash, hdigit, hword, hblank]

/-! ## Whole texts -/

/-- The text that lexemes make up. -/
def textOf (ls : List Lexeme) : Text :=
  ls.flatMap (·.text)

@[simp] theorem textOf_nil : textOf [] = [] := rfl

@[simp] theorem textOf_cons (l : Lexeme) (ls : List Lexeme) :
    textOf (l :: ls) = l.text ++ textOf ls := by
  simp [textOf]

/-- Whether a value is expected after lexemes, if `inValue` says so for the place
    before them. -/
def valueAfter (inValue : Bool) (ls : List Lexeme) : Bool :=
  ls.foldl Lexeme.leavesValue inValue

/-- Lexemes in front of `rest`, each a cut of what is left. -/
inductive CutsAll : Bool → List Lexeme → Text → Prop
  | nil {inValue : Bool} {rest : Text} : CutsAll inValue [] rest
  | cons {inValue : Bool} {l : Lexeme} {ls : List Lexeme} {rest : Text} :
      Cuts inValue l (textOf ls ++ rest) → CutsAll (l.leavesValue inValue) ls rest →
      CutsAll inValue (l :: ls) rest

theorem Cuts.text_ne_nil {inValue : Bool} {l : Lexeme} {rest : Text}
    (h : Cuts inValue l rest) : l.text ≠ [] := by
  cases h <;> simp

theorem Cuts.lexemesFrom_eq {inValue : Bool} {l : Lexeme} {rest : Text}
    (h : Cuts inValue l rest) :
    lexemesFrom inValue (l.text ++ rest) = l :: lexemesFrom (l.leavesValue inValue) rest := by
  obtain ⟨kind, text⟩ := l
  cases text with
  | nil => exact absurd rfl h.text_ne_nil
  | cons c s => rw [List.cons_append, lexemesFrom, h.scan_eq]

/-- The lexemes of a text cut it without a gap, and they make up the text. -/
theorem cutsAll_lexemesFrom (inValue : Bool) (s : Text) :
    CutsAll inValue (lexemesFrom inValue s) [] ∧ textOf (lexemesFrom inValue s) = s := by
  fun_induction lexemesFrom inValue s with
  | case1 => exact ⟨.nil, rfl⟩
  | case2 inValue c s found lexeme ih =>
    refine ⟨.cons ?_ ih.1, ?_⟩
    · rw [ih.2, List.append_nil]
      exact cuts_scan inValue c s
    · rw [textOf_cons, ih.2]
      exact congrArg (c :: ·) (scan_append inValue c s)

/-- Lexemes that cut a text are the ones that the lexer finds there. -/
theorem CutsAll.lexemesFrom_eq {inValue : Bool} {ls : List Lexeme} {rest : Text}
    (h : CutsAll inValue ls rest) :
    lexemesFrom inValue (textOf ls ++ rest) =
      ls ++ lexemesFrom (valueAfter inValue ls) rest := by
  induction h with
  | nil => rfl
  | cons hcut _ ih =>
    rw [textOf_cons, List.append_assoc, hcut.lexemesFrom_eq, ih]
    rfl

theorem CutsAll.text_ne_nil {inValue : Bool} {ls : List Lexeme} {rest : Text}
    (h : CutsAll inValue ls rest) : ∀ l ∈ ls, l.text ≠ [] := by
  induction h with
  | nil => simp
  | cons hcut _ ih =>
    intro l hl
    rcases List.mem_cons.1 hl with rfl | hl
    · exact hcut.text_ne_nil
    · exact ih l hl

theorem map_toLexeme_place (start : Position) (ls : List Lexeme) :
    (place start ls).map Token.toLexeme = ls := by
  induction ls generalizing start with
  | nil => rfl
  | cons l ls ih => simp [place, ih]

end Lexer

/-- Tokens are lexemes with their places. -/
theorem map_toLexeme_tokenize (source : Text) :
    (tokenize source).map Token.toLexeme = lexemes source :=
  Lexer.map_toLexeme_place ..

/-- Every text is cut into tokens that are not empty and that make up the text. -/
theorem tokenize_lossless (source : Text) :
    (∀ t ∈ tokenize source, t.text ≠ []) ∧ (tokenize source).flatMap (·.text) = source := by
  have hcuts := Lexer.cutsAll_lexemesFrom true source
  have hlexemes := map_toLexeme_tokenize source
  constructor
  · intro t ht
    have hmem : t.toLexeme ∈ lexemes source := hlexemes ▸ List.mem_map_of_mem ht
    exact hcuts.1.text_ne_nil _ hmem
  · calc (tokenize source).flatMap (·.text)
      _ = Lexer.textOf ((tokenize source).map Token.toLexeme) := by
          simp [Lexer.textOf, List.flatMap_map]
      _ = source := by rw [hlexemes]; exact hcuts.2

end BanglaSource
