-- SUMMARY: The lexer on target text: when it cuts along the targets of the source's lexemes.
import BanglaSource.Proofs.TargetWords
import Mathlib.Data.List.Chain

/-!
# Relexing

The target text of a source is itself cut into lexemes, by whoever reads it next.
It is cut along the targets of the source's lexemes unless one of two things
happens: a slash behind a word that stands for an operator finds a partner on its
line and so becomes a pattern, or a word behind a pattern begins, in the target
text, with letters that read as flags.
-/
namespace BanglaSource

/-! ## Digits -/

namespace Script

theorem isDigit_latinDigit {c : Char} (h : isAnyDigit c = true) :
    (latinDigit c).isDigit = true := by
  have hdigits : ∀ d < 10, (Nat.digitChar d).isDigit = true := by decide
  by_cases hbangla : isBanglaDigit c = true
  · have hrange := hbangla
    simp only [isBanglaDigit, Bool.and_eq_true, decide_eq_true_eq] at hrange
    simp only [latinDigit, banglaDigitValue?, hbangla, if_true]
    exact hdigits _ (by omega)
  · simpa [latinDigit, banglaDigitValue?, isAnyDigit, hbangla] using h

theorem latinDigits_ascii {s : Text} (h : ∀ c ∈ s, Lexer.isNumberPart c = true) :
    ∀ c ∈ latinDigits s, c.isDigit = true ∨ c = '.' := by
  intro c hc
  obtain ⟨d, hd, rfl⟩ := List.mem_map.1 hc
  have hpart := h d hd
  simp only [Lexer.isNumberPart, Bool.or_eq_true, beq_iff_eq] at hpart
  rcases hpart with hdigit | rfl
  · exact .inl (isDigit_latinDigit hdigit)
  · exact .inr (by decide)

end Script

namespace Lexer

theorem isNumberPart_of_ascii {c : Char} (h : c.isDigit = true ∨ c = '.') :
    isNumberPart c = true := by
  rcases h with h | rfl
  · simp [isNumberPart, Script.isAnyDigit, h]
  · decide

theorem isNumberPart_of_isAnyDigit {c : Char} (h : Script.isAnyDigit c = true) :
    isNumberPart c = true := by
  simp [isNumberPart, h]

theorem Cuts.isNumberPart_of_number {inValue : Bool} {l : Lexeme} {rest : Text}
    (h : Cuts inValue l rest) (hnumber : l.kind = .number) :
    ∀ d ∈ l.text, isNumberPart d = true := by
  cases h with
  | number hc hs _ => exact List.forall_mem_cons.2 ⟨isNumberPart_of_isAnyDigit hc, hs⟩
  | _ => cases hnumber

theorem Cuts.isWordContinue_of_word {inValue : Bool} {l : Lexeme} {rest : Text}
    (h : Cuts inValue l rest) (hword : l.kind = .word) :
    ∀ d ∈ l.text, Script.isWordContinue d = true := by
  cases h with
  | word hc hs _ =>
    exact List.forall_mem_cons.2 ⟨Script.isWordContinue_of_isWordStart hc, hs⟩
  | _ => cases hword

/-! ## First characters -/

/-- How the first character of a lexeme can differ from that of its target. -/
inductive FirstChange : Char → Char → Prop
  | same (c : Char) : FirstChange c c
  | digit {c d : Char} : Script.isAnyDigit c = true → d.isDigit = true → FirstChange c d
  | word {c d : Char} : Script.isWordStart c = true → isNumberPart d = false →
      isBlank d = false → opensComment d = false → FirstChange c d

theorem first_target {inValue : Bool} {l : Lexeme} {rest : Text} (keepNames : Bool)
    (h : Cuts inValue l rest) :
    ∃ c s d t, l.text = c :: s ∧ l.target keepNames = d :: t ∧ FirstChange c d ∧
      (l.kind ≠ .word → c = d ∨ d.isDigit = true) := by
  cases h with
  | @number c s _ hc _ _ =>
    have hd := Script.isDigit_latinDigit hc
    exact ⟨c, s, _, _, rfl, rfl, .digit hc hd, fun _ => .inr hd⟩
  | @word c s _ hc hs _ =>
    suffices ∃ d t, targetWord keepNames (c :: s) = d :: t ∧ isNumberPart d = false ∧
        isBlank d = false ∧ opensComment d = false by
      obtain ⟨d, t, heq, hnumber, hblank, hcomment⟩ := this
      exact ⟨c, s, d, t, rfl, heq, .word hc hnumber hblank hcomment, fun h => absurd rfl h⟩
    cases hkeyword : Keyword.find? (c :: s) with
    | some k =>
      obtain ⟨-, -, -, d, hd, hclasses⟩ :=
        Keyword.target_plain k (Keyword.find?_eq_some hkeyword).1
      obtain ⟨t, ht⟩ := List.head?_eq_some_iff.1 (Option.mem_def.1 hd)
      exact ⟨d, t, by simp [targetWord, hkeyword, ht], hclasses⟩
    | none =>
      obtain ⟨⟨d, t, heq, hd, -⟩, -⟩ := targetWord_of_not_keyword keepNames hc hs hkeyword
      have hcontinue := Script.isWordContinue_of_isWordStart hd
      have hne : ∀ x, Script.isWordContinue x = false → (d == x) = false := fun x hx =>
        beq_eq_false_iff_ne.2 (Script.ne_of_isWordContinue hcontinue hx)
      refine ⟨d, t, heq, ?_, Script.not_isBlank_of_isWordContinue hcontinue, ?_⟩
      · simp [isNumberPart, Script.not_isAnyDigit_of_isWordStart hd, hne '.' (by decide)]
      · simp [opensComment, hne '/' (by decide), hne '*' (by decide)]
  | _ => exact ⟨_, _, _, _, rfl, rfl, .same _, fun _ => .inl rfl⟩

namespace FirstChange

theorem isWordContinue {c d : Char} (h : FirstChange c d)
    (hc : Script.isWordContinue c = false) : Script.isWordContinue d = false := by
  cases h with
  | same => exact hc
  | digit hdigit => rw [Script.isWordContinue_of_isAnyDigit hdigit] at hc; cases hc
  | word hstart => rw [Script.isWordContinue_of_isWordStart hstart] at hc; cases hc

theorem isNumberPart {c d : Char} (h : FirstChange c d) (hc : Lexer.isNumberPart c = false) :
    Lexer.isNumberPart d = false := by
  cases h with
  | same => exact hc
  | digit hdigit => rw [isNumberPart_of_isAnyDigit hdigit] at hc; cases hc
  | word _ hd => exact hd

theorem isBlank {c d : Char} (h : FirstChange c d) (hc : BanglaSource.isBlank c = false) :
    BanglaSource.isBlank d = false := by
  cases h with
  | same => exact hc
  | digit _ hd =>
    exact Script.not_isBlank_of_isWordContinue
      (Script.isWordContinue_of_isAnyDigit (Script.isAnyDigit_of_isDigit hd))
  | word _ _ hd => exact hd

theorem opensComment {c d : Char} (h : FirstChange c d) (hc : Lexer.opensComment c = false) :
    Lexer.opensComment d = false := by
  cases h with
  | same => exact hc
  | digit _ hd =>
    have hcontinue := Script.isWordContinue_of_isAnyDigit (Script.isAnyDigit_of_isDigit hd)
    simp [Lexer.opensComment, Script.ne_of_isWordContinue hcontinue (d := '/') (by decide),
      Script.ne_of_isWordContinue hcontinue (d := '*') (by decide)]
  | word _ _ _ hd => exact hd

theorem lineFeed {c d : Char} (h : FirstChange c d) (hc : (c != '\n') = false) :
    (d != '\n') = false := by
  cases h with
  | same => exact hc
  | digit hdigit =>
    simp only [bne_eq_false_iff_eq] at hc
    subst hc
    exact absurd hdigit (by decide)
  | word hstart =>
    simp only [bne_eq_false_iff_eq] at hc
    subst hc
    exact absurd hstart (by decide)

end FirstChange

/-- The first character of a target stays outside a class that has no room for the
    changes to first characters. -/
theorem avoids_targetLexemes {p : Char → Bool} {inValue : Bool} {ls : List Lexeme}
    (keepNames : Bool) (h : CutsAll inValue ls [])
    (hp : ∀ c d, FirstChange c d → p c = false → p d = false)
    (hls : (textOf ls).Avoids p) : (targetLexemes keepNames ls).Avoids p := by
  cases h with
  | nil => simp [targetLexemes]
  | cons hcut _ =>
    obtain ⟨c, s, d, t, htext, htarget, hchange, -⟩ := first_target keepNames hcut
    simp only [textOf_cons, htext, List.cons_append, Text.avoids_cons] at hls
    simp only [targetLexemes, List.flatMap_cons, htarget, List.cons_append, Text.avoids_cons]
    exact hp c d hchange hls

/-! ## The rest of the line -/

theorem isPlain_targetWord {c : Char} {s : Text} (keepNames : Bool)
    (hc : Script.isWordStart c = true) (hs : ∀ d ∈ s, Script.isWordContinue d = true) :
    ∀ d ∈ targetWord keepNames (c :: s), Literal.isPlain d = true := by
  cases hkeyword : Keyword.find? (c :: s) with
  | some k =>
    simp only [targetWord, hkeyword]
    exact (Keyword.target_plain k (Keyword.find?_eq_some hkeyword).1).2.2.1
  | none =>
    obtain ⟨⟨d, t, heq, hd, ht⟩, -⟩ := targetWord_of_not_keyword keepNames hc hs hkeyword
    have hword : Cuts true ⟨.word, d :: t⟩ [] := .word hd ht (Text.avoids_nil _)
    rw [heq]
    intro x hx
    exact Literal.isPlain_of_isWordContinue (hword.isWordContinue_of_word rfl x hx)

/-- Words and numbers are plain, and so are their targets. Everything else is its own
    target. -/
theorem Cuts.isPlain_or_target_eq {inValue : Bool} {l : Lexeme} {rest : Text} (keepNames : Bool)
    (h : Cuts inValue l rest) :
    (∀ c ∈ l.text, Literal.isPlain c = true) ∧
      (∀ c ∈ l.target keepNames, Literal.isPlain c = true) ∨
    l.target keepNames = l.text := by
  have hcut := h
  cases h with
  | word hc hs _ =>
    refine .inl ⟨fun d hd => ?_, isPlain_targetWord keepNames hc hs⟩
    exact Literal.isPlain_of_isWordContinue (hcut.isWordContinue_of_word rfl d hd)
  | number =>
    have hparts := hcut.isNumberPart_of_number rfl
    refine .inl ⟨fun d hd => Literal.isPlain_of_isNumberPart (hparts d hd), fun d hd => ?_⟩
    exact Literal.isPlain_of_isNumberPart
      (isNumberPart_of_ascii (Script.latinDigits_ascii hparts d hd))
  | _ => exact .inr rfl

/-- The scan of a pattern makes no difference between a lexeme and its target. -/
theorem foldl_next_target {inValue : Bool} {l : Lexeme} {rest : Text} (keepNames : Bool)
    (h : Cuts inValue l rest) (p : Literal.Progress) :
    (l.target keepNames).foldl Literal.Progress.next p = l.text.foldl Literal.Progress.next p := by
  have hne : l.target keepNames ≠ [] := by
    obtain ⟨c, s, d, t, -, htarget, -⟩ := first_target keepNames h
    simp [htarget]
  rcases h.isPlain_or_target_eq keepNames with ⟨htext, htarget⟩ | hsame
  · rw [Literal.foldl_next_plain htext h.text_ne_nil, Literal.foldl_next_plain htarget hne]
  · rw [hsame]

theorem foldl_next_targetLexemes {inValue : Bool} {ls : List Lexeme} {rest : Text}
    (keepNames : Bool) (h : CutsAll inValue ls rest) (p : Literal.Progress) :
    (targetLexemes keepNames ls).foldl Literal.Progress.next p =
      (textOf ls).foldl Literal.Progress.next p := by
  induction h generalizing p with
  | nil => rfl
  | cons hcut _ ih =>
    simp only [targetLexemes, List.flatMap_cons, List.foldl_append, textOf_cons] at ih ⊢
    rw [foldl_next_target keepNames hcut, ih]

/-- A slash finds a partner on its line in the target text exactly if it finds one
    in the source. -/
theorem closePattern_targetLexemes {inValue : Bool} {ls : List Lexeme} (keepNames : Bool)
    (h : CutsAll inValue ls []) :
    Literal.closePattern (targetLexemes keepNames ls) = none ↔
      Literal.closePattern (textOf ls) = none := by
  rw [Literal.closePattern_eq_none_iff, Literal.closePattern_eq_none_iff,
    foldl_next_targetLexemes keepNames h]

end Lexer

/-! ## One lexeme -/

namespace Lexeme

/-- Comments and blanks, across which a value stays expected or not. -/
def isGap (l : Lexeme) : Bool :=
  l.kind == .comment || l.isBlank

/-- The symbol for a division. -/
def slash : Lexeme := ⟨.symbol, ['/']⟩

end Lexeme

namespace Lexer

theorem Cuts.of_slash {inValue : Bool} {rest : Text} (h : Cuts inValue .slash rest) :
    rest.Avoids opensComment ∧ (inValue = true → Literal.closePattern rest = none) := by
  cases h with
  | slash hcomment hclose => exact ⟨hcomment, hclose⟩
  | blank hc => exact absurd hc (by decide)
  | symbol _ hne => exact absurd rfl hne

theorem leavesValue_of_isGap {l : Lexeme} (h : l.isGap = true) (inValue : Bool) :
    l.leavesValue inValue = inValue := by
  obtain ⟨kind, text⟩ := l
  cases kind <;> simp_all [Lexeme.isGap, Lexeme.leavesValue, Lexeme.isBlank]

/-- After what a lexeme stands for a value is expected as after the lexeme. Only
    operators differ, since the word for an operator leaves none expected. -/
theorem valueAfter_relexed {inValue inValue' keepNames : Bool} {l : Lexeme} {rest : Text}
    (h : Cuts inValue l rest) :
    valueAfter inValue' (l.relexed keepNames) =
      if l.isGap then inValue' else l.isOperatorWord || l.leavesValue inValue := by
  obtain ⟨kind, text⟩ := l
  cases kind with
  | word => rw [valueAfter_relexed_word h rfl]; rfl
  | symbol =>
    by_cases hblank : Text.isBlankText text = true <;>
      simp [Lexeme.relexed, Lexeme.isGap, Lexeme.isOperatorWord, valueAfter, Lexeme.leavesValue,
        Lexeme.isBlank, hblank]
  | _ => rfl

/-- What keeps the cut of `l` in front of `ls` the same in the target text, where
    `inValue` says whether a value is expected there. -/
structure StepFaithful (keepNames inValue : Bool) (l : Lexeme) (ls : List Lexeme) : Prop where
  division : l = .slash → inValue = true → Literal.closePattern (textOf ls) = none
  flags : l.kind = .pattern → ∀ w ∈ ls.head?, w.kind = .word →
    (w.target keepNames).Avoids Literal.isFlag

theorem not_isFlag_of_isDigit {c : Char} (h : c.isDigit = true) : Literal.isFlag c = false := by
  cases hflag : Literal.isFlag c with
  | false => rfl
  | true =>
    have hflags : (['d', 'g', 'i', 'm', 's', 'u', 'v', 'y'].all fun d => !d.isDigit) = true := by
      decide
    have hletter := List.all_eq_true.1 hflags c (List.contains_iff_mem.1 hflag)
    simp [h] at hletter

/-- Flags behind a pattern in the target text come from a word. -/
theorem avoids_isFlag_targetLexemes {inValue : Bool} {ls : List Lexeme} {keepNames : Bool}
    (h : CutsAll inValue ls []) (hls : (textOf ls).Avoids Literal.isFlag)
    (hword : ∀ w ∈ ls.head?, w.kind = .word → (w.target keepNames).Avoids Literal.isFlag) :
    (targetLexemes keepNames ls).Avoids Literal.isFlag := by
  cases h with
  | nil => simp [targetLexemes]
  | @cons _ l ls _ hcut _ =>
    obtain ⟨c, s, d, t, htext, htarget, -, hsame⟩ := first_target keepNames hcut
    simp only [targetLexemes, List.flatMap_cons, htarget, List.cons_append, Text.avoids_cons]
    by_cases hkind : l.kind = .word
    · simpa [htarget] using hword l rfl hkind
    · rcases hsame hkind with rfl | hdigit
      · simpa [htext] using hls
      · exact not_isFlag_of_isDigit hdigit

/-- A step of the lexer over the target text: it finds what the lexeme of the
    source stands for. -/
theorem cutsAll_relexed {inValue inValue' keepNames : Bool} {l : Lexeme} {ls : List Lexeme}
    (hcut : Cuts inValue l (textOf ls)) (hcuts : CutsAll (l.leavesValue inValue) ls [])
    (hvalue : inValue = true → inValue' = true) (hstep : StepFaithful keepNames inValue' l ls) :
    CutsAll inValue' (l.relexed keepNames) (targetLexemes keepNames ls) := by
  have havoids : ∀ p, (∀ c d, FirstChange c d → p c = false → p d = false) →
      (textOf ls).Avoids p → (targetLexemes keepNames ls).Avoids p :=
    fun p hp => avoids_targetLexemes keepNames hcuts hp
  -- A literal that is never closed has nothing behind it, in the target text neither.
  have hnil : textOf ls = [] → targetLexemes keepNames ls = [] := by
    intro h
    cases hcuts with
    | nil => rfl
    | cons hfirst _ => simp [hfirst.text_ne_nil] at h
  by_cases hword : l.kind = .word
  · exact cutsAll_relexed_word hcut hword
      (havoids _ (fun _ _ => FirstChange.isWordContinue) (hcut.avoids_of_word hword))
  suffices hone : ∃ m, l.relexed keepNames = [m] ∧ Cuts inValue' m (targetLexemes keepNames ls) by
    obtain ⟨m, hm, hcut'⟩ := hone
    rw [hm]
    exact .cons (by simpa using hcut') .nil
  cases hcut with
  | word => exact absurd rfl hword
  | string hquote hclose =>
    refine ⟨_, rfl, .string hquote ?_⟩
    by_cases hrest : textOf ls = []
    · rw [hnil hrest, ← hrest, hclose]
    · exact Literal.closeString_exchange hclose hrest _
  | lineComment hs hrest =>
    exact ⟨_, rfl, .lineComment hs (havoids _ (fun _ _ => FirstChange.lineFeed) hrest)⟩
  | blockComment hclose =>
    refine ⟨_, rfl, .blockComment ?_⟩
    by_cases hrest : textOf ls = []
    · rw [hnil hrest, ← hrest, hclose]
    · exact Literal.closeComment_exchange hclose hrest _
  | pattern hin hcomment hclose =>
    have hne := Literal.closePattern_ne_nil hclose
    have hflags := avoids_isFlag_targetLexemes hcuts (Literal.closePattern_avoids hclose)
      (hstep.flags rfl)
    refine ⟨_, rfl, .pattern (hvalue hin) ?_ ?_⟩
    · rwa [Text.avoids_append hne] at hcomment ⊢
    · rw [Literal.closePattern_exchange hclose, Text.takeWhile_of_avoids hflags,
        Text.dropWhile_of_avoids hflags, List.append_nil]
  | slash hcomment _ =>
    refine ⟨_, rfl, .slash (havoids _ (fun _ _ => FirstChange.opensComment) hcomment) ?_⟩
    intro hin
    exact (closePattern_targetLexemes keepNames hcuts).2 (hstep.division rfl hin)
  | @number c s _ hc hs hrest =>
    have htail : ∀ d ∈ Script.latinDigits s, isNumberPart d = true := fun d hd =>
      isNumberPart_of_ascii (Script.latinDigits_ascii hs d hd)
    exact ⟨_, rfl, .number (Script.isAnyDigit_of_isDigit (Script.isDigit_latinDigit hc)) htail
      (havoids _ (fun _ _ => FirstChange.isNumberPart) hrest)⟩
  | blank hc hs hrest =>
    exact ⟨_, rfl, .blank hc hs (havoids _ (fun _ _ => FirstChange.isBlank) hrest)⟩
  | symbol hquote hne hdigit hstart hc =>
    exact ⟨_, rfl, .symbol hquote hne hdigit hstart hc⟩

/-- Where a value is expected behind a lexeme, it is expected behind what the
    lexeme stands for. -/
theorem valueAfter_of_leavesValue {inValue inValue' : Bool} {l : Lexeme} {rest : Text}
    (keepNames : Bool) (h : Cuts inValue l rest) (hvalue : inValue = true → inValue' = true)
    (hl : l.leavesValue inValue = true) : valueAfter inValue' (l.relexed keepNames) = true := by
  rw [valueAfter_relexed h]
  split
  · next hgap => exact hvalue (leavesValue_of_isGap hgap inValue ▸ hl)
  · rw [hl, Bool.or_true]

theorem lexemesFrom_target_append {inValue inValue' keepNames : Bool} {l : Lexeme}
    {ls : List Lexeme} (hcut : Cuts inValue l (textOf ls))
    (hcuts : CutsAll (l.leavesValue inValue) ls []) (hvalue : inValue = true → inValue' = true)
    (hstep : StepFaithful keepNames inValue' l ls) :
    lexemesFrom inValue' (targetLexemes keepNames (l :: ls)) =
      l.relexed keepNames ++ lexemesFrom (valueAfter inValue' (l.relexed keepNames))
        (targetLexemes keepNames ls) := by
  have h := (cutsAll_relexed hcut hcuts hvalue hstep).lexemesFrom_eq
  rwa [Lexeme.textOf_relexed] at h

/-! ## Whole texts -/

/-- The cut of every lexeme is kept, in a target text at the start of which a value
    is expected or not. -/
def FaithfulFrom (keepNames : Bool) : Bool → List Lexeme → Prop
  | _, [] => True
  | inValue, l :: ls => StepFaithful keepNames inValue l ls ∧
      FaithfulFrom keepNames (valueAfter inValue (l.relexed keepNames)) ls

theorem lexemesFrom_targetLexemes {inValue inValue' keepNames : Bool} {ls : List Lexeme}
    (h : CutsAll inValue ls []) (hvalue : inValue = true → inValue' = true)
    (hfaithful : FaithfulFrom keepNames inValue' ls) :
    lexemesFrom inValue' (targetLexemes keepNames ls) = ls.flatMap (·.relexed keepNames) := by
  induction ls generalizing inValue inValue' with
  | nil => simp [targetLexemes, lexemesFrom]
  | cons l ls ih =>
    cases h with
    | cons hcut hcuts =>
      rw [List.append_nil] at hcut
      obtain ⟨hstep, hrest⟩ := hfaithful
      rw [lexemesFrom_target_append hcut hcuts hvalue hstep,
        ih hcuts (valueAfter_of_leavesValue keepNames hcut hvalue) hrest, List.flatMap_cons]

/-- The slash that follows a gap, if one does, has no partner on its line. -/
def Unpaired (ls : List Lexeme) : Prop :=
  ∀ after, ls.dropWhile (·.isGap) = .slash :: after → Literal.closePattern (textOf after) = none

theorem unpaired_cons (l : Lexeme) (ls : List Lexeme) :
    Unpaired (l :: ls) ↔
      (l = .slash → Literal.closePattern (textOf ls) = none) ∧ (l.isGap = true → Unpaired ls) := by
  by_cases hgap : l.isGap = true
  · have hslash : l ≠ .slash := by rintro rfl; exact absurd hgap (by decide)
    simp [Unpaired, hgap, hslash]
  · simp [Unpaired, hgap]

theorem unpaired_of_cutsAll {ls : List Lexeme} (h : CutsAll true ls []) : Unpaired ls := by
  induction ls with
  | nil => simp [Unpaired]
  | cons l ls ih =>
    cases h with
    | cons hcut hcuts =>
      rw [List.append_nil] at hcut
      rw [unpaired_cons]
      constructor
      · rintro rfl
        exact hcut.of_slash.2 rfl
      · intro hgap
        exact ih (leavesValue_of_isGap hgap true ▸ hcuts)

/-- No slash behind a word for an operator has a partner on its line, and no word
    behind a pattern starts, in the target text, with a flag. -/
structure Faithful (keepNames : Bool) (ls : List Lexeme) : Prop where
  division : ∀ w after, w :: after <:+ ls → w.isOperatorWord = true → Unpaired after
  flags : ∀ p w after, p :: w :: after <:+ ls → p.kind = .pattern → w.kind = .word →
    (w.target keepNames).Avoids Literal.isFlag

theorem faithful_cons (keepNames : Bool) (l : Lexeme) (ls : List Lexeme) :
    Faithful keepNames (l :: ls) ↔
      (l.isOperatorWord = true → Unpaired ls) ∧
      (l.kind = .pattern → ∀ w ∈ ls.head?, w.kind = .word →
        (w.target keepNames).Avoids Literal.isFlag) ∧ Faithful keepNames ls := by
  constructor
  · intro h
    refine ⟨h.division l ls (List.suffix_refl _), ?_, ?_, ?_⟩
    · intro hkind w hw
      obtain ⟨after, rfl⟩ := List.head?_eq_some_iff.1 (Option.mem_def.1 hw)
      exact h.flags l w after (List.suffix_refl _) hkind
    · intro w after hsuffix
      exact h.division w after (List.suffix_cons_iff.2 (.inr hsuffix))
    · intro p w after hsuffix
      exact h.flags p w after (List.suffix_cons_iff.2 (.inr hsuffix))
  · rintro ⟨hdivision, hflags, h⟩
    constructor
    · intro w after hsuffix
      rcases List.suffix_cons_iff.1 hsuffix with heq | hsuffix
      · cases heq; exact hdivision
      · exact h.division w after hsuffix
    · intro p w after hsuffix
      rcases List.suffix_cons_iff.1 hsuffix with heq | hsuffix
      · cases heq
        intro hkind
        exact hflags hkind w rfl
      · exact h.flags p w after hsuffix

/-- Whether a value is expected in the target text where none is in the source, is
    decided by the last word for an operator. -/
theorem faithfulFrom_iff {inValue inValue' keepNames : Bool} {ls : List Lexeme}
    (h : CutsAll inValue ls []) (hvalue : inValue = true → inValue' = true) :
    FaithfulFrom keepNames inValue' ls ↔
      Faithful keepNames ls ∧ (inValue' = true → Unpaired ls) := by
  induction ls generalizing inValue inValue' with
  | nil =>
    have hunpaired : Unpaired [] := by simp [Unpaired]
    have hfaithful : Faithful keepNames [] := ⟨by simp, by simp⟩
    simp [FaithfulFrom, hunpaired, hfaithful]
  | cons l ls ih =>
    cases h with
    | cons hcut hcuts =>
      rw [List.append_nil] at hcut
      have hauto : l.leavesValue inValue = true → Unpaired ls := fun hl =>
        unpaired_of_cutsAll (hl ▸ hcuts)
      rw [FaithfulFrom, ih hcuts (valueAfter_of_leavesValue keepNames hcut hvalue),
        valueAfter_relexed hcut, faithful_cons, unpaired_cons]
      by_cases hgap : l.isGap = true
      · have hword : l.isOperatorWord = false := by
          obtain ⟨kind, text⟩ := l
          cases kind <;> simp_all [Lexeme.isGap, Lexeme.isOperatorWord, Lexeme.isBlank]
        simp only [hgap, hword, if_true]
        grind [StepFaithful]
      · simp only [hgap]
        grind [StepFaithful]

theorem lexemes_targetText {keepNames : Bool} {source : Text}
    (h : Faithful keepNames (lexemes source)) :
    lexemes (targetText keepNames source) = (lexemes source).flatMap (·.relexed keepNames) := by
  have hcuts := (cutsAll_lexemesFrom true source).1
  exact lexemesFrom_targetLexemes hcuts id
    ((faithfulFrom_iff hcuts id).2 ⟨h, fun _ => unpaired_of_cutsAll hcuts⟩)

theorem CutsAll.exists_cuts {inValue : Bool} {ls : List Lexeme} {rest : Text}
    (h : CutsAll inValue ls rest) : ∀ l ∈ ls, ∃ inValue' rest', Cuts inValue' l rest' := by
  induction h with
  | nil => simp
  | cons hcut _ ih =>
    intro l hl
    rcases List.mem_cons.1 hl with rfl | hl
    · exact ⟨_, _, hcut⟩
    · exact ih l hl

/-- Numbers of the target text have no other digits than ASCII ones. -/
theorem ascii_of_mem_relexed {inValue keepNames : Bool} {l m : Lexeme} {rest : Text}
    (h : Cuts inValue l rest) (hm : m ∈ l.relexed keepNames) (hnumber : m.kind = .number) :
    ∀ c ∈ m.text, c.isDigit = true ∨ c = '.' := by
  have hcut := h
  cases h with
  | number =>
    rw [List.mem_singleton.1 hm]
    exact Script.latinDigits_ascii (hcut.isNumberPart_of_number rfl)
  | word =>
    simp only [Lexeme.relexed] at hm
    split at hm
    · next k hkeyword =>
      have hplain := (Keyword.target_plain k (Keyword.find?_eq_some hkeyword).1).1 m hm
      simp [hnumber] at hplain
    · rw [List.mem_singleton.1 hm] at hnumber
      cases hnumber
  | _ =>
    rw [List.mem_singleton.1 hm] at hnumber
    cases hnumber

theorem faithful_of_isChain {keepNames : Bool} {ls : List Lexeme}
    (hoperators : ∀ l ∈ ls, l.isOperatorWord = false)
    (hwords : ls.IsChain fun p w => p.kind = .pattern → w.kind ≠ .word) :
    Faithful keepNames ls := by
  constructor
  · intro w after hsuffix hw
    rw [hoperators w (hsuffix.subset List.mem_cons_self)] at hw
    cases hw
  · intro p w after hsuffix hp hw
    have hpair := hwords.suffix hsuffix
    exact absurd hw ((List.isChain_cons_cons.1 hpair).1 hp)

end Lexer

/-- Without words for operators, and without words right behind patterns, the
    target text is cut into what the tokens of the source stand for, in order. -/
theorem tokenize_targetText (keepNames : Bool) (source : Text)
    (hoperators : ∀ t ∈ tokenize source, t.isOperatorWord = false)
    (hwords : (tokenize source).IsChain fun p w => p.kind = .pattern → w.kind ≠ .word) :
    (tokenize (targetText keepNames source)).map Token.toLexeme =
      (tokenize source).flatMap (·.relexed keepNames) ∧
    ∀ t ∈ tokenize (targetText keepNames source), t.kind = .number →
      ∀ c ∈ t.text, c.isDigit = true ∨ c = '.' := by
  have hfaithful : Lexer.Faithful keepNames (lexemes source) := by
    rw [← map_toLexeme_tokenize]
    refine Lexer.faithful_of_isChain ?_ ((List.isChain_map _).2 hwords)
    simpa using hoperators
  have hlexemes := Lexer.lexemes_targetText hfaithful
  constructor
  · rw [map_toLexeme_tokenize, hlexemes, ← map_toLexeme_tokenize source, List.flatMap_map]
  · intro t ht hnumber
    have hmem : t.toLexeme ∈ lexemes (targetText keepNames source) :=
      map_toLexeme_tokenize _ ▸ List.mem_map_of_mem ht
    rw [hlexemes] at hmem
    obtain ⟨l, hl, hrelexed⟩ := List.mem_flatMap.1 hmem
    obtain ⟨_, _, hcut⟩ := (Lexer.cutsAll_lexemesFrom true source).1.exists_cuts l hl
    exact Lexer.ascii_of_mem_relexed hcut hrelexed hnumber

/-- A declaration with a keyword, a name, a pattern and a Bangla number. -/
def patternDeclaration : Text := "পরিবর্তনশীল ক = /খ/g + ১২"

theorem tokenize_targetText_patternDeclaration :
    (∀ t ∈ tokenize patternDeclaration, t.isOperatorWord = false) ∧
    ((tokenize patternDeclaration).IsChain fun p w => p.kind = .pattern → w.kind ≠ .word) ∧
    (tokenize (targetText false patternDeclaration)).map Token.toLexeme =
      (tokenize patternDeclaration).flatMap (·.relexed false) := by
  have h : (∀ t ∈ tokenize patternDeclaration, t.isOperatorWord = false) ∧
      (tokenize patternDeclaration).IsChain fun p w => p.kind = .pattern → w.kind ≠ .word := by
    decide +kernel
  exact ⟨h.1, h.2, (tokenize_targetText false patternDeclaration h.1 h.2).1⟩

end BanglaSource
