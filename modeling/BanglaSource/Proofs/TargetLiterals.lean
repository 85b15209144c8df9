-- SUMMARY: Which literals of the target text are literals of the source, and when all of them are.
import BanglaSource.Proofs.Relexing

/-!
# Literals of the target text

A literal of the source passes to the target text as it is. That every literal of
the target text comes from a literal of the source is another matter, for the
reader of the target text decides anew what is a pattern. The two agree, place by
place, exactly if the source is faithful.
-/
namespace BanglaSource

/-- The texts of the literals of a source, in order. -/
def literals (source : Text) : List Text :=
  ((tokenize source).filter (·.isLiteral)).map (·.text)

/-- The literals among lexemes with the places where they start, if each lexeme
    takes up the room of its `piece` from `start` on. -/
def literalPlaces (piece : Lexeme → Text) (start : Nat) : List Lexeme → List (Nat × Text)
  | [] => []
  | l :: ls =>
    let rest := literalPlaces piece (start + (piece l).length) ls
    if l.isLiteral then (start, l.text) :: rest else rest

namespace Lexer

/-! ## Places -/

theorem literalPlaces_append (piece : Lexeme → Text) (start : Nat) (ls ms : List Lexeme) :
    literalPlaces piece start (ls ++ ms) =
      literalPlaces piece start ls ++
        literalPlaces piece (start + (ls.flatMap piece).length) ms := by
  induction ls generalizing start with
  | nil => simp [literalPlaces]
  | cons l ls ih =>
    simp only [List.cons_append, literalPlaces, ih, List.flatMap_cons, List.length_append,
      Nat.add_assoc]
    split <;> rfl

theorem le_of_mem_literalPlaces {piece : Lexeme → Text} {start : Nat} {ls : List Lexeme} :
    ∀ found ∈ literalPlaces piece start ls, start ≤ found.1 := by
  induction ls generalizing start with
  | nil => simp [literalPlaces]
  | cons l ls ih =>
    intro found hfound
    have hlater : found ∈ literalPlaces piece (start + (piece l).length) ls → start ≤ found.1 :=
      fun h => Nat.le_of_add_right_le (ih found h)
    simp only [literalPlaces] at hfound
    split at hfound
    · rcases List.mem_cons.1 hfound with rfl | hfound
      · exact Nat.le_refl _
      · exact hlater hfound
    · exact hlater hfound

theorem literalPlaces_eq_nil {piece : Lexeme → Text} {start : Nat} {ls : List Lexeme}
    (h : ∀ l ∈ ls, l.isLiteral = false) : literalPlaces piece start ls = [] := by
  induction ls generalizing start with
  | nil => rfl
  | cons l ls ih =>
    rw [List.forall_mem_cons] at h
    simp [literalPlaces, h.1, ih h.2]

theorem map_snd_literalPlaces (piece : Lexeme → Text) (start : Nat) (ls : List Lexeme) :
    (literalPlaces piece start ls).map (·.2) = (ls.filter (·.isLiteral)).map (·.text) := by
  induction ls generalizing start with
  | nil => rfl
  | cons l ls ih =>
    by_cases hl : l.isLiteral = true <;> simp [literalPlaces, hl, ih]

theorem literals_eq (piece : Lexeme → Text) (start : Nat) (source : Text) :
    literals source = (literalPlaces piece start (lexemes source)).map (·.2) := by
  rw [map_snd_literalPlaces, ← map_toLexeme_tokenize, List.filter_map, List.map_map]
  rfl

/-- What a lexeme stands for holds a literal exactly if the lexeme is one. -/
theorem literalPlaces_relexed {inValue : Bool} {l : Lexeme} {rest : Text} (keepNames : Bool)
    (start : Nat) (h : Cuts inValue l rest) :
    literalPlaces (·.text) start (l.relexed keepNames) =
      if l.isLiteral then [(start, l.text)] else [] := by
  cases h with
  | @word c s _ _ _ _ =>
    apply literalPlaces_eq_nil
    intro m hm
    simp only [Lexeme.relexed] at hm
    split at hm
    · next k hkeyword =>
      have hplain := (Keyword.target_plain k (Keyword.find?_eq_some hkeyword).1).1 m hm
      rcases hplain.1 with hkind | hkind <;> simp [Lexeme.isLiteral, hkind, Kind.isLiteral]
    · rw [List.mem_singleton.1 hm]; rfl
  | _ => rfl

/-! ## Where faithfulness fails -/

/-- Where a slash turns into a pattern, the source has no literal. -/
theorem literalPlaces_ne_of_division {inValue keepNames : Bool} {ls : List Lexeme} (start : Nat)
    (hcut : Cuts inValue .slash (textOf ls))
    (hcuts : CutsAll (Lexeme.slash.leavesValue inValue) ls [])
    (hclose : Literal.closePattern (textOf ls) ≠ none) :
    literalPlaces (·.text) start (lexemesFrom true (targetLexemes keepNames (.slash :: ls))) ≠
      literalPlaces (·.target keepNames) start (.slash :: ls) := by
  have hcomment : (targetLexemes keepNames ls).Avoids opensComment :=
    avoids_targetLexemes keepNames hcuts (fun _ _ => FirstChange.opensComment) hcut.of_slash.1
  have htarget : Literal.closePattern (targetLexemes keepNames ls) ≠ none :=
    fun h => hclose ((closePattern_targetLexemes keepNames hcuts).1 h)
  obtain ⟨⟨inside, rest⟩, hpattern⟩ := Option.ne_none_iff_exists'.1 htarget
  have happend := Literal.closePattern_append hpattern
  have hfound : Cuts true ⟨.pattern, '/' :: inside⟩ rest :=
    .pattern rfl (by rwa [happend]) (by rwa [happend])
  intro heq
  have hmem : (start, '/' :: inside) ∈ literalPlaces (·.target keepNames) start (.slash :: ls) := by
    rw [← heq, show targetLexemes keepNames (.slash :: ls) = '/' :: (inside ++ rest) by
      rw [happend]; rfl, ← List.cons_append, hfound.lexemesFrom_eq]
    exact List.mem_cons_self
  have hlater : (start, '/' :: inside) ∈ literalPlaces (·.target keepNames) (start + 1) ls := hmem
  have hle := le_of_mem_literalPlaces _ hlater
  exact absurd hle (Nat.not_succ_le_self start)

/-- Where a pattern takes flags from a word, it is longer than in the source. -/
theorem literalPlaces_ne_of_flags {keepNames : Bool} {s : Text} {ls : List Lexeme} (start : Nat)
    (hcomment : (s ++ textOf ls).Avoids opensComment)
    (hclose : Literal.closePattern (s ++ textOf ls) = some (s, textOf ls))
    (hflags : ¬ (targetLexemes keepNames ls).Avoids Literal.isFlag) :
    literalPlaces (·.text) start
        (lexemesFrom true (targetLexemes keepNames (⟨.pattern, '/' :: s⟩ :: ls))) ≠
      literalPlaces (·.target keepNames) start (⟨.pattern, '/' :: s⟩ :: ls) := by
  have hpattern := Literal.closePattern_exchange hclose (targetLexemes keepNames ls)
  have happend := Literal.closePattern_append hpattern
  have hfound : Cuts true ⟨.pattern, '/' :: (s ++ (targetLexemes keepNames ls).takeWhile
      Literal.isFlag)⟩ ((targetLexemes keepNames ls).dropWhile Literal.isFlag) := by
    refine .pattern rfl ?_ (by rwa [happend])
    rw [happend]
    rwa [Text.avoids_append (Literal.closePattern_ne_nil hclose)] at hcomment ⊢
  intro heq
  rw [show targetLexemes keepNames (⟨.pattern, '/' :: s⟩ :: ls) =
      '/' :: (s ++ targetLexemes keepNames ls) from rfl, ← happend, ← List.cons_append,
    hfound.lexemesFrom_eq] at heq
  simp only [literalPlaces, Lexeme.isLiteral, Kind.isLiteral, if_true, List.cons.injEq,
    Prod.mk.injEq, true_and, List.append_right_eq_self] at heq
  cases htarget : targetLexemes keepNames ls with
  | nil => simp [htarget] at hflags
  | cons c t => simp_all

theorem stepFaithful_of_literalPlaces {inValue inValue' keepNames : Bool} {l : Lexeme}
    {ls : List Lexeme} {start : Nat} (hcut : Cuts inValue l (textOf ls))
    (hcuts : CutsAll (l.leavesValue inValue) ls []) (hvalue : inValue = true → inValue' = true)
    (heq : literalPlaces (·.text) start (lexemesFrom inValue' (targetLexemes keepNames (l :: ls))) =
      literalPlaces (·.target keepNames) start (l :: ls)) :
    StepFaithful keepNames inValue' l ls := by
  constructor
  · rintro rfl rfl
    by_contra hclose
    exact literalPlaces_ne_of_division start hcut hcuts hclose heq
  · intro hkind w hw hword
    by_contra hflag
    obtain ⟨after, rfl⟩ := List.head?_eq_some_iff.1 (Option.mem_def.1 hw)
    cases hcut with
    | pattern hin hcomment hclose =>
      obtain rfl := hvalue hin
      refine literalPlaces_ne_of_flags start hcomment hclose ?_ heq
      have hne : w.target keepNames ≠ [] := by rintro h; simp [h] at hflag
      rwa [targetLexemes, List.flatMap_cons, Text.avoids_append hne]
    | _ => cases hkind

/-- The literals of the target text are those of the source, place by place, exactly
    as long as every step is faithful. -/
theorem literalPlaces_lexemesFrom_iff {inValue inValue' keepNames : Bool} {ls : List Lexeme}
    (start : Nat) (h : CutsAll inValue ls []) (hvalue : inValue = true → inValue' = true) :
    literalPlaces (·.text) start (lexemesFrom inValue' (targetLexemes keepNames ls)) =
      literalPlaces (·.target keepNames) start ls ↔ FaithfulFrom keepNames inValue' ls := by
  induction ls generalizing inValue inValue' start with
  | nil => simp [targetLexemes, lexemesFrom, literalPlaces, FaithfulFrom]
  | cons l ls ih =>
    cases h with
    | cons hcut hcuts =>
      rw [List.append_nil] at hcut
      have hrest := ih (start + (l.target keepNames).length) hcuts
        (valueAfter_of_leavesValue keepNames hcut hvalue)
      -- As long as the step is faithful, both sides have the same literals up to here.
      have hfirst : StepFaithful keepNames inValue' l ls →
          (literalPlaces (·.text) start
              (lexemesFrom inValue' (targetLexemes keepNames (l :: ls))) =
            literalPlaces (·.target keepNames) start (l :: ls) ↔
          FaithfulFrom keepNames (valueAfter inValue' (l.relexed keepNames)) ls) := by
        intro hstep
        have hlength : ((l.relexed keepNames).flatMap (·.text)).length =
            (l.target keepNames).length := congrArg List.length (l.textOf_relexed keepNames)
        rw [lexemesFrom_target_append hcut hcuts hvalue hstep, literalPlaces_append,
          literalPlaces_relexed keepNames start hcut, hlength, ← hrest]
        by_cases hl : l.isLiteral = true <;> simp [literalPlaces, hl]
      constructor
      · intro heq
        have hstep := stepFaithful_of_literalPlaces hcut hcuts hvalue heq
        exact ⟨hstep, (hfirst hstep).1 heq⟩
      · rintro ⟨hstep, hfaithful⟩
        exact (hfirst hstep).2 hfaithful

end Lexer

/-- The literals of the target text stand where the literals of the source come to
    stand, and are the same, exactly if no slash behind a word for an operator has a
    partner on its line and no word behind a pattern starts, in the target text,
    with a flag. Then the two texts also have the same literals in the same order. -/
theorem literals_targetText_iff (keepNames : Bool) (source : Text) :
    (literalPlaces (·.text) 0 (lexemes (targetText keepNames source)) =
        literalPlaces (·.target keepNames) 0 (lexemes source) ↔
      Lexer.Faithful keepNames (lexemes source)) ∧
    (Lexer.Faithful keepNames (lexemes source) →
      literals (targetText keepNames source) = literals source) := by
  have hcuts := (Lexer.cutsAll_lexemesFrom true source).1
  have hplaces : literalPlaces (·.text) 0 (lexemes (targetText keepNames source)) =
      literalPlaces (·.target keepNames) 0 (lexemes source) ↔
        Lexer.Faithful keepNames (lexemes source) :=
    (Lexer.literalPlaces_lexemesFrom_iff 0 hcuts id).trans <|
      (Lexer.faithfulFrom_iff hcuts id).trans <|
        and_iff_left fun _ => Lexer.unpaired_of_cutsAll hcuts
  refine ⟨hplaces, ?_⟩
  intro hfaithful
  rw [Lexer.literals_eq (·.text) 0 (targetText keepNames source), hplaces.2 hfaithful,
    ← Lexer.literals_eq]

/-- Behind the word for a negation a division turns into a pattern, with the name
    between the slashes spelled in Latin letters. -/
theorem literals_targetText_negation :
    literals "না /নাম/" = [] ∧ literals (targetText false "না /নাম/") = ["/nam/"] ∧
      ¬ ∀ keepNames source, literals (targetText keepNames source) = literals source := by
  have h : literals "না /নাম/" = [] ∧ literals (targetText false "না /নাম/") = ["/nam/"] := by
    decide +kernel
  refine ⟨h.1, h.2, ?_⟩
  intro hall
  have hlost := hall false "না /নাম/"
  rw [h.1, h.2] at hlost
  cases hlost

end BanglaSource
