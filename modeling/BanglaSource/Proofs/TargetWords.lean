-- SUMMARY: What can stand in the target text for a word: facts about every keyword and every identifier.
import BanglaSource.Proofs.Identifiers
import BanglaSource.Proofs.Literals
import BanglaSource.Proofs.Spelling
import BanglaSource.Target

/-!
# Words in the target text

The target of a keyword is a fixed text; the target of any other word is one
word. What the lexer needs to know about them is read off the keyword table once:
how a target is cut, where it leaves a value to be expected, and which characters
it is made of. Operators are the keywords whose targets are no words.
-/
namespace BanglaSource

/-! ## Keywords -/

namespace Keyword

open Lexer

/-- Whether the target is an operator and not a word. -/
def isOperator (k : Keyword) : Bool :=
  k.category = .logic || k.category = .comparison

/-- A word is found under a row that has the same canonical spelling. -/
theorem find?_eq_some {word : Text} {k : Keyword} (h : find? word = some k) :
    k ∈ table ∧ Script.canonicalize k.spelling = Script.canonicalize word := by
  obtain ⟨before, after, heq, -⟩ := List.lookup_eq_some_iff.1 h
  have hmem : (Script.canonicalize word, k) ∈ index := by simp [heq]
  obtain ⟨row, hrow, hpair⟩ := List.mem_map.1 hmem
  obtain ⟨hword, rfl⟩ := Prod.mk.injEq .. ▸ hpair
  exact ⟨hrow, hword⟩

/-- Targets are cut into words and symbols. They hold no slash and nothing that
    the scan of a pattern looks at, and they neither end in a blank nor start
    with what would extend a number, a run of blanks or a slash before them. -/
theorem target_plain : ∀ k ∈ table,
    (∀ l ∈ lexemes k.target, (l.kind = .word ∨ l.kind = .symbol) ∧ l.text ≠ ['/']) ∧
    (∃ l ∈ (lexemes k.target).getLast?, l.isBlank = false) ∧
    (∀ c ∈ k.target, Literal.isPlain c = true) ∧
    (∃ c ∈ k.target.head?,
      isNumberPart c = false ∧ isBlank c = false ∧ opensComment c = false) := by
  have hrows : ∀ k ∈ table,
      (∀ l ∈ lexemes k.target, (l.kind = .word ∨ l.kind = .symbol) ∧ l.text ≠ ['/']) ∧
      (∃ l ∈ (lexemes k.target).getLast?, l.isBlank = false) ∧
      k.target.all Literal.isPlain = true ∧
      (k.target.head?.any fun c => !(isNumberPart c || isBlank c || opensComment c)) = true := by
    decide +kernel
  intro k hk
  obtain ⟨hlexemes, hlast, hplain, hfirst⟩ := hrows k hk
  obtain ⟨c, hc, hclasses⟩ := (Option.any_eq_true _ _).1 hfirst
  refine ⟨hlexemes, hlast, List.all_eq_true.1 hplain, c, hc, ?_⟩
  simpa [and_assoc] using hclasses

/-- Spellings are Bangla. After a target a value is expected exactly if the target is
    an operator or the spelling is a word after which a value is expected. Such words
    are reserved in the target language or are keywords. -/
theorem target_value :
    -- One pass over the table for all of it: reading its spellings is what takes the time.
    (∀ k ∈ table, Script.hasBangla k.spelling = true ∧
      ∀ inValue, valueAfter inValue (lexemes k.target) =
        (k.isOperator || expressionIndex.contains (Script.canonicalize k.spelling))) ∧
    (∀ w ∈ expressionIndex,
      (Reserved.isReserved w = true ∧ Script.hasBangla w = false) ∨
      ((index.lookup w).isSome = true ∧ Script.hasBangla w = true)) := by
  decide +kernel

/-- A word without Bangla characters is no keyword. -/
theorem find?_of_not_hasBangla {word : Text} (h : Script.hasBangla word = false) :
    find? word = none := by
  cases hfound : find? word with
  | none => rfl
  | some k =>
    obtain ⟨hrow, hspelling⟩ := find?_eq_some hfound
    have hbangla := (target_value.1 k hrow).1
    rw [← Script.hasBangla_canonicalize, hspelling, Script.hasBangla_canonicalize, h] at hbangla
    cases hbangla

end Keyword

/-! ## Value position after words -/

/-- After an identifier that was made up no value is expected. -/
theorem not_expression_of_isFree {s : Text} (h : Identifier.IsFree s) :
    expressionIndex.contains (Script.canonicalize s) = false := by
  have hbangla := Identifier.not_hasBangla_of_isPart (Identifier.isPart_of_isValid h.1)
  rw [Script.canonicalize_of_not_hasBangla hbangla, ← Bool.not_eq_true, List.contains_iff_mem]
  intro hmem
  rcases Keyword.target_value.2 s hmem with ⟨hreserved, -⟩ | ⟨-, hs⟩
  · rw [h.2] at hreserved; cases hreserved
  · rw [hbangla] at hs; cases hs

/-- After a Bangla word that is no keyword no value is expected. -/
theorem not_expression_of_not_keyword {w : Text} (hbangla : Script.hasBangla w = true)
    (hkeyword : Keyword.find? w = none) :
    expressionIndex.contains (Script.canonicalize w) = false := by
  rw [← Bool.not_eq_true, List.contains_iff_mem]
  intro hmem
  rcases Keyword.target_value.2 _ hmem with ⟨-, hs⟩ | ⟨hfound, -⟩
  · rw [Script.hasBangla_canonicalize, hbangla] at hs; cases hs
  · rw [show Keyword.index.lookup (Script.canonicalize w) = none from hkeyword] at hfound
    cases hfound

/-! ## Words and symbols in another context -/

namespace Lexer

theorem Cuts.avoids_of_word {inValue : Bool} {l : Lexeme} {rest : Text} (h : Cuts inValue l rest)
    (hword : l.kind = .word) : rest.Avoids Script.isWordContinue := by
  cases h with
  | word _ _ hrest => exact hrest
  | _ => cases hword

theorem Cuts.avoids_of_blank {inValue : Bool} {l : Lexeme} {rest : Text}
    (h : Cuts inValue l rest) (hblank : l.isBlank = true) : rest.Avoids isBlank := by
  cases h with
  | blank _ _ hrest => exact hrest
  | slash => exact absurd hblank (by decide)
  | symbol _ _ _ _ hc => simp [Lexeme.isBlank, Text.isBlankText, hc] at hblank
  | _ => simp [Lexeme.isBlank] at hblank

/-- A word or a symbol other than a slash is a cut wherever nothing extends it. -/
theorem Cuts.exchange {inValue inValue' : Bool} {l : Lexeme} {rest rest' : Text}
    (h : Cuts inValue l rest) (hkind : l.kind = .word ∨ l.kind = .symbol) (hslash : l.text ≠ ['/'])
    (hword : l.kind = .word → rest'.Avoids Script.isWordContinue)
    (hblank : l.isBlank = true → rest'.Avoids isBlank) : Cuts inValue' l rest' := by
  cases h with
  | word hc hs _ => exact .word hc hs (hword rfl)
  | blank hc hs _ =>
    refine .blank hc hs (hblank ?_)
    simpa [Lexeme.isBlank, Text.isBlankText] using ⟨hc, hs⟩
  | symbol hquote hne hdigit hstart hc => exact .symbol hquote hne hdigit hstart hc
  | slash => exact absurd rfl hslash
  | _ => simp at hkind

/-- Words and symbols other than slashes are cut alike in front of every text that
    does not continue a word, unless they end in a blank. -/
theorem CutsAll.exchange {inValue inValue' : Bool} {ls : List Lexeme} {rest' : Text}
    (h : CutsAll inValue ls [])
    (hls : ∀ l ∈ ls, (l.kind = .word ∨ l.kind = .symbol) ∧ l.text ≠ ['/'])
    (hlast : ∀ l ∈ ls.getLast?, l.isBlank = false)
    (hrest : rest'.Avoids Script.isWordContinue) : CutsAll inValue' ls rest' := by
  induction ls generalizing inValue inValue' with
  | nil => exact .nil
  | cons l ls ih =>
    cases h with
    | cons hcut hcuts =>
      have hl := hls l List.mem_cons_self
      have htail : CutsAll (l.leavesValue inValue') ls rest' := by
        apply ih hcuts
        · intro m hm
          exact hls m (List.mem_cons_of_mem _ hm)
        · intro m hm
          exact hlast m (by rw [List.getLast?_cons, Option.mem_def.1 hm]; rfl)
      -- The boundary behind `l` is the old one, except behind the last lexeme.
      have hboundary : ∀ p, (textOf ls ++ []).Avoids p → (ls = [] → rest'.Avoids p) →
          (textOf ls ++ rest').Avoids p := by
        intro p hp hnil
        cases ls with
        | nil => exact hnil rfl
        | cons m ms =>
          have hm := hcuts.text_ne_nil m List.mem_cons_self
          rw [Text.avoids_append (by simp [hm])] at hp ⊢
          exact hp
      refine .cons (hcut.exchange hl.1 hl.2 ?_ ?_) htail
      · intro hword
        exact hboundary _ (hcut.avoids_of_word hword) fun _ => hrest
      · intro hblank
        apply hboundary _ (hcut.avoids_of_blank hblank)
        intro hnil
        rw [hlast l (by simp [hnil])] at hblank
        cases hblank

end Lexer

/-! ## The target of a lexeme -/

namespace Lexeme

/-- The lexemes of the target text for which a lexeme stands. -/
def relexed (keepNames : Bool) (l : Lexeme) : List Lexeme :=
  match l.kind with
  | .word =>
    match Keyword.find? l.text with
    | some k => lexemes k.target
    | none => [⟨.word, targetWord keepNames l.text⟩]
  | .number => [⟨.number, Script.latinDigits l.text⟩]
  | .string | .comment | .pattern | .symbol => [l]

/-- Whether a lexeme is a word that stands for an operator. -/
def isOperatorWord (l : Lexeme) : Bool :=
  l.kind == .word && (Keyword.find? l.text).any Keyword.isOperator

theorem textOf_relexed (keepNames : Bool) (l : Lexeme) :
    Lexer.textOf (l.relexed keepNames) = l.target keepNames := by
  obtain ⟨kind, text⟩ := l
  cases kind with
  | word =>
    simp only [relexed, target, targetWord]
    cases Keyword.find? text with
    | some k => exact (Lexer.cutsAll_lexemesFrom true k.target).2
    | none => simp
  | _ => simp [relexed, target]

end Lexeme

namespace Lexer

/-- The target of a word that is no keyword is a word, and a value is expected
    after the one as after the other. -/
theorem targetWord_of_not_keyword {c : Char} {s : Text} (keepNames : Bool)
    (hc : Script.isWordStart c = true) (hs : ∀ d ∈ s, Script.isWordContinue d = true)
    (hkeyword : Keyword.find? (c :: s) = none) :
    (∃ d t, targetWord keepNames (c :: s) = d :: t ∧ Script.isWordStart d = true ∧
      ∀ x ∈ t, Script.isWordContinue x = true) ∧
    expressionIndex.contains (Script.canonicalize (targetWord keepNames (c :: s))) =
      expressionIndex.contains (Script.canonicalize (c :: s)) := by
  simp only [targetWord, hkeyword]
  split
  · next hmade =>
    have hfree := Identifier.isFree_ofText (c :: s)
    have hbangla : Script.hasBangla (c :: s) = true := (Bool.and_eq_true _ _ ▸ hmade).2
    obtain ⟨d, t, heq, hd, ht⟩ := (Identifier.isValid_iff _).1 hfree.1
    refine ⟨⟨d, t, heq, Identifier.isWordStart_of_isStart hd, ?_⟩, ?_⟩
    · intro x hx
      exact Identifier.isWordContinue_of_isPart (ht x hx)
    · rw [not_expression_of_isFree hfree, not_expression_of_not_keyword hbangla hkeyword]
  · exact ⟨⟨c, s, rfl, hc, hs⟩, rfl⟩

/-- What a word stands for is cut alike in front of every text that does not
    continue a word. -/
theorem cutsAll_relexed_word {inValue inValue' keepNames : Bool} {l : Lexeme} {rest rest' : Text}
    (h : Cuts inValue l rest) (hword : l.kind = .word)
    (hrest : rest'.Avoids Script.isWordContinue) :
    CutsAll inValue' (l.relexed keepNames) rest' := by
  cases h with
  | @word c s _ hc hs _ =>
    cases hkeyword : Keyword.find? (c :: s) with
    | some k =>
      obtain ⟨hls, ⟨last, hlast, hblank⟩, -, -⟩ :=
        Keyword.target_plain k (Keyword.find?_eq_some hkeyword).1
      have hcuts := (cutsAll_lexemesFrom true k.target).1
      simp only [Lexeme.relexed, hkeyword]
      refine hcuts.exchange hls ?_ hrest
      intro m hm
      rw [Option.mem_unique hm hlast, hblank]
    | none =>
      obtain ⟨⟨d, t, heq, hd, ht⟩, -⟩ := targetWord_of_not_keyword keepNames hc hs hkeyword
      simp only [Lexeme.relexed, hkeyword, heq]
      exact .cons (.word hd ht (by simpa using hrest)) .nil
  | _ => cases hword

/-- After what a word stands for a value is expected as after the word, and also
    if the word stands for an operator. -/
theorem valueAfter_relexed_word {inValue inValue' keepNames : Bool} {l : Lexeme} {rest : Text}
    (h : Cuts inValue l rest) (hword : l.kind = .word) :
    valueAfter inValue' (l.relexed keepNames) =
      (l.isOperatorWord || l.leavesValue inValue) := by
  cases h with
  | @word c s _ hc hs _ =>
    cases hkeyword : Keyword.find? (c :: s) with
    | some k =>
      obtain ⟨hrow, hspelling⟩ := Keyword.find?_eq_some hkeyword
      simp [Lexeme.relexed, Lexeme.isOperatorWord, Lexeme.leavesValue, hkeyword,
        (Keyword.target_value.1 k hrow).2 inValue', hspelling]
    | none =>
      have hvalue := (targetWord_of_not_keyword keepNames hc hs hkeyword).2
      simpa [Lexeme.relexed, Lexeme.isOperatorWord, hkeyword, valueAfter, Lexeme.leavesValue]
        using hvalue
  | _ => cases hword

end Lexer
end BanglaSource
