-- SUMMARY: A text is cut into lexemes at the same places however its letters are spelled.
import BanglaSource.Proofs.Literals
import BanglaSource.Proofs.Spelling

/-!
# Respelling

Spelling a letter out replaces one character by two that belong to the same
classes, so every scanner stops at the same places. Hence a text and its
expansion are cut alike, and so are any two texts with the same canonical
spelling. A letter that is spelled with two characters and escaped has its first
half escaped, which makes no difference either.
-/
namespace BanglaSource

namespace Script

/-! ## Classes -/

/-- Whether a class holds of both halves of a pair exactly if it holds of the letter. -/
def Respects (p : Char → Bool) : Prop :=
  ∀ c, ∀ x ∈ decompose c, p x = p c

theorem respects_of_pairs {p : Char → Bool} {v : Bool}
    (h : ∀ q ∈ pairs, p q.1 = v ∧ p q.2.1 = v ∧ p q.2.2 = v) : Respects p := by
  intro c x hx
  rcases decompose_cases c with hc | ⟨a, b, hab, hc⟩
  · rw [hc, List.mem_singleton] at hx
    rw [hx]
  · obtain ⟨ha, hb, hletter⟩ := h _ (compose?_eq_some hab)
    rw [hc, List.mem_pair] at hx
    rcases hx with rfl | rfl
    · rw [ha, hletter]
    · rw [hb, hletter]

theorem decompose_ne_nil (c : Char) : decompose c ≠ [] := by
  rcases decompose_cases c with hc | ⟨a, b, -, hc⟩ <;> simp [hc]

/-- A letter is spelled with itself or with two characters of words. -/
theorem decompose_word (c : Char) :
    decompose c = [c] ∨
      Script.isWordStart c = true ∧ ∀ x ∈ decompose c, Script.isWordStart x = true := by
  have hpairs : ∀ q ∈ pairs, isWordStart q.1 = true ∧ isWordStart q.2.1 = true ∧
      isWordStart q.2.2 = true := by
    decide
  rcases decompose_cases c with hc | ⟨a, b, hab, hc⟩
  · exact .inl hc
  · obtain ⟨ha, hb, hletter⟩ := hpairs _ (compose?_eq_some hab)
    exact .inr ⟨hletter, by simp [hc, ha, hb]⟩

/-- A character of a class that excludes all letters with two spellings has one. -/
theorem decompose_eq_self {p : Char → Bool} (hp : ∀ q ∈ pairs, p q.2.2 = false) {c : Char}
    (hc : p c = true) : decompose c = [c] := by
  rcases decompose_cases c with hsingle | ⟨a, b, hab, -⟩
  · exact hsingle
  · rw [hp _ (compose?_eq_some hab)] at hc
    cases hc

theorem forall_expand {p : Char → Bool} (hp : Respects p) {s : Text} {v : Bool}
    (h : ∀ c ∈ s, p c = v) : ∀ c ∈ expand s, p c = v := by
  intro x hx
  obtain ⟨c, hc, hx⟩ := List.mem_flatMap.1 hx
  rw [hp c x hx, h c hc]

theorem all_expand {p : Char → Bool} (hp : Respects p) (s : Text) :
    (expand s).all p = s.all p := by
  have hdecompose : ∀ c, (decompose c).all p = p c := by
    intro c
    rcases decompose_cases c with hc | ⟨a, b, -, hc⟩
    · simp [hc]
    · simp [hc, hp c a (by simp [hc]), hp c b (by simp [hc])]
  simp [expand, List.all_flatMap, hdecompose]

theorem avoids_expand {p : Char → Bool} (hp : Respects p) {s : Text} (h : s.Avoids p) :
    (expand s).Avoids p := by
  cases s with
  | nil => exact h
  | cons c s =>
    rw [Text.avoids_cons] at h
    obtain ⟨x, t, hx⟩ := List.exists_cons_of_ne_nil (decompose_ne_nil c)
    rw [expand_cons, hx, List.cons_append, Text.avoids_cons, hp c x (by simp [hx]), h]

/-- A run of characters of a class may be looked for before or after replacing each
    character by some of the same class. -/
theorem dropWhile_flatMap {p : Char → Bool} {f : Char → Text} (hne : ∀ c, f c ≠ [])
    (hp : ∀ c, ∀ x ∈ f c, p x = p c) (s : Text) :
    (s.flatMap f).dropWhile p = (s.dropWhile p).flatMap f := by
  induction s with
  | nil => rfl
  | cons c s ih =>
    by_cases hc : p c = true
    · have hrun : ∀ x ∈ f c, p x = true := fun x hx => (hp c x hx).trans hc
      rw [List.flatMap_cons, List.dropWhile_append_of_pos hrun, ih, List.dropWhile_cons_of_pos hc]
    · obtain ⟨x, t, hx⟩ := List.exists_cons_of_ne_nil (hne c)
      have hstop : ¬ p x = true := by rwa [hp c x (by simp [hx])]
      rw [List.dropWhile_cons_of_neg hc, List.flatMap_cons, hx, List.cons_append,
        List.dropWhile_cons_of_neg hstop]

theorem dropWhile_expand {p : Char → Bool} (hp : Respects p) (s : Text) :
    (expand s).dropWhile p = expand (s.dropWhile p) :=
  dropWhile_flatMap decompose_ne_nil hp s

theorem takeWhile_expand {p : Char → Bool} (hp : Respects p) (s : Text) :
    (expand s).takeWhile p = expand (s.takeWhile p) := by
  have happend : expand (s.takeWhile p) ++ (expand s).dropWhile p = expand s := by
    rw [dropWhile_expand hp, ← expand_append, List.takeWhile_append_dropWhile]
  exact List.append_cancel_right (List.takeWhile_append_dropWhile.trans happend.symm)

end Script

/-! ## Scanners -/

namespace Literal

open Script

/-- The characters that spell a letter out are characters of words. -/
theorem isWordContinue_of_decompose {t : Text} (h : ∀ c ∈ t, isWordStart c = true) :
    ∀ c ∈ t, isWordContinue c = true :=
  fun c hc => isWordContinue_of_isWordStart (h c hc)

/-- A backslash before nothing stays one before nothing. -/
theorem escape_expand {c : Char} {s : Text} (h : ∀ d t, c = '\\' → s = d :: t → False) :
    ∀ d t, c = '\\' → expand s = d :: t → False := by
  intro d t hc hexpand
  cases s with
  | nil => cases hexpand
  | cons x s => exact h x s hc rfl

variable {quote : Char}

theorem closeString_word (hquote : isQuote quote = true) {t : Text}
    (ht : ∀ c ∈ t, isWordContinue c = true) (s : Text) :
    closeString quote (t ++ s) = (t ++ (closeString quote s).1, (closeString quote s).2) := by
  induction t with
  | nil => rfl
  | cons c t ih =>
    rw [List.forall_mem_cons] at ht
    have hbackslash : c ≠ '\\' := ne_of_isWordContinue ht.1 (by decide)
    have hc : c ≠ quote := by
      rintro rfl
      rw [not_isQuote_of_isWordContinue ht.1] at hquote
      cases hquote
    simp [closeString, hbackslash, hc, ih ht.2]

theorem closeString_expand (hquote : isQuote quote = true) (s : Text) :
    closeString quote (expand s) =
      (expand (closeString quote s).1, expand (closeString quote s).2) := by
  have hself : decompose quote = [quote] := decompose_eq_self (by decide) hquote
  have hbackslash : decompose '\\' = ['\\'] := rfl
  fun_induction closeString quote s with
  | case1 => rfl
  | case2 c s inside rest hclose ih =>
    rw [hclose] at ih
    rcases decompose_word c with hc | ⟨-, hword⟩
    · simp [hbackslash, hc, closeString, ih]
    · -- Only the first half is escaped; the second one is like any other character.
      obtain ⟨x, t, hx⟩ := List.exists_cons_of_ne_nil (decompose_ne_nil c)
      rw [hx, List.forall_mem_cons] at hword
      have ht := isWordContinue_of_decompose hword.2
      simp [hbackslash, hx, closeString, closeString_word hquote ht, ih]
  | case3 s _ =>
    have hne : quote ≠ '\\' := by
      rintro rfl
      exact absurd hquote (by decide)
    simp [hself, closeString, hne]
  | case4 c s hescape hc inside rest hclose ih =>
    rw [hclose] at ih
    rcases decompose_word c with hsingle | ⟨-, hword⟩
    · rw [expand_cons, hsingle, List.singleton_append,
        closeString.eq_3 _ _ _ (escape_expand hescape), if_neg hc, ih]
      simp [hsingle]
    · rw [expand_cons, closeString_word hquote (isWordContinue_of_decompose hword), ih]
      rfl

theorem closeComment_word {t : Text} (ht : ∀ c ∈ t, isWordContinue c = true) (s : Text) :
    closeComment (t ++ s) = (t ++ (closeComment s).1, (closeComment s).2) := by
  induction t with
  | nil => rfl
  | cons c t ih =>
    rw [List.forall_mem_cons] at ht
    have hstar : c ≠ '*' := ne_of_isWordContinue ht.1 (by decide)
    simp [closeComment, hstar, ih ht.2]

theorem closeComment_expand (s : Text) :
    closeComment (expand s) = (expand (closeComment s).1, expand (closeComment s).2) := by
  fun_induction closeComment s with
  | case1 => rfl
  | case2 s => rfl
  | case3 c s hopen inside rest hclose ih =>
    rw [hclose] at ih
    rcases decompose_word c with hsingle | ⟨-, hword⟩
    · have hopen' : ∀ t, c = '*' → expand s = '/' :: t → False := by
        intro t hstar hexpand
        have hs : Text.Avoids (· == '/') s := by
          cases s with
          | nil => exact Text.avoids_nil _
          | cons d s =>
            rw [Text.avoids_cons, beq_eq_false_iff_ne]
            rintro rfl
            exact hopen s hstar rfl
        have hexpanded := avoids_expand (p := (· == '/')) (respects_of_pairs (v := false) (by decide)) hs
        rw [hexpand, Text.avoids_cons] at hexpanded
        exact absurd hexpanded (by decide)
      rw [expand_cons, hsingle, List.singleton_append, closeComment.eq_3 _ _ hopen', ih]
      simp [hsingle]
    · rw [expand_cons, closeComment_word (isWordContinue_of_decompose hword), ih]
      rfl

theorem not_isLineEnd_of_isWordContinue {c : Char} (h : isWordContinue c = true) :
    isLineEnd c = false := by
  simp [isLineEnd, ne_of_isWordContinue h (d := '\n') (by decide),
    ne_of_isWordContinue h (d := '\r') (by decide)]

theorem classAfter_of_isWordContinue {c : Char} (h : isWordContinue c = true) (inClass : Bool) :
    classAfter inClass c = inClass := by
  simp [classAfter, ne_of_isWordContinue h (d := '[') (by decide),
    ne_of_isWordContinue h (d := ']') (by decide)]

theorem closeBody_word {inClass : Bool} {t : Text} (ht : ∀ c ∈ t, isWordContinue c = true)
    (s : Text) :
    closeBody inClass (t ++ s) =
      (closeBody inClass s).map fun (inside, rest) => (t ++ inside, rest) := by
  induction t with
  | nil => simp
  | cons c t ih =>
    rw [List.forall_mem_cons] at ht
    have hslash : c ≠ '/' := ne_of_isWordContinue ht.1 (by decide)
    rw [List.cons_append, closeBody_cons inClass _ (ne_of_isWordContinue ht.1 (by decide)),
      not_isLineEnd_of_isWordContinue ht.1, classAfter_of_isWordContinue ht.1, ih ht.2]
    simp [hslash, Function.comp_def]

theorem closeBody_expand (inClass : Bool) (s : Text) :
    closeBody inClass (expand s) = (closeBody inClass s).map (Prod.map expand expand) := by
  have hbackslash : decompose '\\' = ['\\'] := rfl
  have hsingle : ∀ {c : Char}, isLineEnd c = true → decompose c = [c] :=
    decompose_eq_self (by decide)
  fun_induction closeBody inClass s with
  | case1 => rfl
  | case2 inClass c s hend => simp [hbackslash, hsingle hend, closeBody, hend]
  | case3 inClass c s hend ih =>
    rcases decompose_word c with hc | ⟨-, hword⟩
    · simp [hbackslash, hc, closeBody, hend, ih, Function.comp_def]
    · obtain ⟨x, t, hx⟩ := List.exists_cons_of_ne_nil (decompose_ne_nil c)
      rw [hx, List.forall_mem_cons] at hword
      have hend' := not_isLineEnd_of_isWordContinue (isWordContinue_of_isWordStart hword.1)
      have ht := isWordContinue_of_decompose hword.2
      simp [hbackslash, hx, closeBody, hend', closeBody_word ht, ih, Function.comp_def]
  | case4 inClass c s hescape hend =>
    rw [expand_cons, hsingle hend, List.singleton_append,
      closeBody.eq_3 _ _ _ (escape_expand hescape), if_pos hend]
    rfl
  | case5 inClass c s hescape hend hslash =>
    simp only [Bool.and_eq_true, decide_eq_true_eq] at hslash
    obtain ⟨rfl, hclass⟩ := hslash
    simp [show decompose '/' = ['/'] from rfl, closeBody, hend, hclass]
  | case6 inClass c s hescape hend hslash ih =>
    rcases decompose_word c with hc | ⟨hletter, hword⟩
    · rw [expand_cons, hc, List.singleton_append, closeBody.eq_3 _ _ _ (escape_expand hescape),
        if_neg hend, if_neg hslash, ih]
      simp [hc, Function.comp_def]
    · rw [classAfter_of_isWordContinue (isWordContinue_of_isWordStart hletter)] at ih ⊢
      rw [expand_cons, closeBody_word (isWordContinue_of_decompose hword), ih]
      simp [Function.comp_def]

theorem closePattern_expand (s : Text) :
    closePattern (expand s) = (closePattern s).map (Prod.map expand expand) := by
  have hflag : Respects isFlag := respects_of_pairs (v := false) (by decide)
  rw [closePattern, closePattern, closeBody_expand]
  cases closeBody false s with
  | none => rfl
  | some cut => simp [takeWhile_expand hflag, dropWhile_expand hflag]

end Literal

/-! ## Lexemes -/

namespace Lexeme

/-- The lexeme with every letter spelled out. -/
def expand (l : Lexeme) : Lexeme :=
  { l with text := Script.expand l.text }

/-- The lexeme in canonical spelling. -/
def canonical (l : Lexeme) : Lexeme :=
  { l with text := Script.canonicalize l.text }

theorem canonical_expand (l : Lexeme) : l.expand.canonical = l.canonical := by
  simp [expand, canonical]

theorem isBlank_expand (l : Lexeme) : l.expand.isBlank = l.isBlank := by
  have hblank : Script.Respects BanglaSource.isBlank :=
    Script.respects_of_pairs (v := false) (by decide)
  simp only [isBlank, expand, Text.isBlankText, Script.all_expand hblank]

/-- A value is expected after a lexeme however it is spelled. -/
theorem leavesValue_expand (inValue : Bool) (l : Lexeme) :
    l.expand.leavesValue inValue = l.leavesValue inValue := by
  have hblank := l.isBlank_expand
  obtain ⟨kind, text⟩ := l
  cases kind with
  | word => simp [leavesValue, expand]
  | symbol =>
    simp only [leavesValue, hblank]
    simp only [expand]
    congr 1
    match text with
    | [] => rfl
    | [c] =>
      rcases Script.decompose_cases c with hc | ⟨a, b, hab, hc⟩
      · simp [hc]
      · have hsymbols : ∀ q ∈ Script.pairs, q.2.2 ∉ expressionSymbols := by decide
        simp [hc, hsymbols _ (Script.compose?_eq_some hab)]
    | c :: d :: s =>
      obtain ⟨x, t, hx⟩ := List.exists_cons_of_ne_nil (Script.decompose_ne_nil c)
      obtain ⟨y, u, hy⟩ := List.exists_cons_of_ne_nil (Script.decompose_ne_nil d)
      cases t <;> simp [hx, hy]
  | _ => rfl

end Lexeme

namespace Lexer

open Script (Respects respects_of_pairs forall_expand avoids_expand decompose_eq_self expand_append)

/-- A cut of a text is a cut of the text with every letter spelled out. -/
theorem Cuts.expand {inValue : Bool} {l : Lexeme} {rest : Text} (h : Cuts inValue l rest) :
    Cuts inValue l.expand (Script.expand rest) := by
  have hopens : Respects opensComment := respects_of_pairs (v := false) (by decide)
  cases h with
  | @string quote s _ hquote hclose =>
    have hself : Script.decompose quote = [quote] := decompose_eq_self (by decide) hquote
    have hexpand := Literal.closeString_expand hquote (s ++ rest)
    rw [hclose, expand_append] at hexpand
    simpa [Lexeme.expand, hself] using Cuts.string hquote hexpand
  | @lineComment s _ hs hrest =>
    have hline : Respects (· != '\n') := respects_of_pairs (v := true) (by decide)
    exact .lineComment (forall_expand hline hs) (avoids_expand hline hrest)
  | @blockComment s _ hclose =>
    have hexpand := Literal.closeComment_expand (s ++ rest)
    rw [hclose, expand_append] at hexpand
    exact .blockComment hexpand
  | @pattern s _ hvalue hcomment hclose =>
    have hexpand := Literal.closePattern_expand (s ++ rest)
    rw [hclose, expand_append] at hexpand
    have hcomment' := avoids_expand hopens hcomment
    rw [expand_append] at hcomment'
    exact .pattern hvalue hcomment' hexpand
  | slash hcomment hclose =>
    refine .slash (avoids_expand hopens hcomment) fun hvalue => ?_
    rw [Literal.closePattern_expand, hclose hvalue]
    rfl
  | @number c s _ hc hs hrest =>
    have hpart : Respects isNumberPart := respects_of_pairs (v := false) (by decide)
    have hself : Script.decompose c = [c] := decompose_eq_self (by decide) hc
    simpa [Lexeme.expand, hself] using
      Cuts.number hc (forall_expand hpart hs) (avoids_expand hpart hrest)
  | @word c s _ hc hs hrest =>
    have hstart : Respects Script.isWordStart := respects_of_pairs (v := true) (by decide)
    have hcontinue : Respects Script.isWordContinue := respects_of_pairs (v := true) (by decide)
    obtain ⟨x, t, hx⟩ := List.exists_cons_of_ne_nil (Script.decompose_ne_nil c)
    have hfirst : Script.isWordStart x = true := (hstart c x (by simp [hx])).trans hc
    have htail : ∀ y ∈ t ++ Script.expand s, Script.isWordContinue y = true := by
      have hall := forall_expand (s := c :: s) hcontinue
        (List.forall_mem_cons.2 ⟨Script.isWordContinue_of_isWordStart hc, hs⟩)
      rw [Script.expand_cons, hx] at hall
      exact (List.forall_mem_cons.1 hall).2
    simpa [Lexeme.expand, hx] using Cuts.word hfirst htail (avoids_expand hcontinue hrest)
  | @blank c s _ hc hs hrest =>
    have hblank : Respects isBlank := respects_of_pairs (v := false) (by decide)
    have hself : Script.decompose c = [c] := decompose_eq_self (by decide) hc
    simpa [Lexeme.expand, hself] using
      Cuts.blank hc (forall_expand hblank hs) (avoids_expand hblank hrest)
  | @symbol c _ hquote hslash hdigit hword hblank =>
    have hself : Script.decompose c = [c] :=
      decompose_eq_self (p := fun c => !Script.isWordStart c) (by decide) (by simp [hword])
    simpa [Lexeme.expand, hself] using Cuts.symbol hquote hslash hdigit hword hblank

theorem textOf_map_expand (ls : List Lexeme) :
    textOf (ls.map Lexeme.expand) = Script.expand (textOf ls) := by
  simp [textOf, Lexeme.expand, Script.expand, List.flatMap_map, List.flatMap_assoc]

theorem CutsAll.expand {inValue : Bool} {ls : List Lexeme} {rest : Text}
    (h : CutsAll inValue ls rest) :
    CutsAll inValue (ls.map Lexeme.expand) (Script.expand rest) := by
  induction h with
  | nil => exact .nil
  | @cons inValue l ls rest hcut _ ih =>
    have hcut' := hcut.expand
    rw [expand_append, ← textOf_map_expand] at hcut'
    refine .cons hcut' ?_
    rw [l.leavesValue_expand]
    exact ih

/-- A text with every letter spelled out is cut at the same places. -/
theorem lexemesFrom_expand (inValue : Bool) (s : Text) :
    lexemesFrom inValue (Script.expand s) = (lexemesFrom inValue s).map Lexeme.expand := by
  obtain ⟨hcuts, htext⟩ := cutsAll_lexemesFrom inValue s
  have hexpand := hcuts.expand.lexemesFrom_eq
  rwa [textOf_map_expand, htext, Script.expand_nil, List.append_nil, lexemesFrom,
    List.append_nil] at hexpand

end Lexer

/-- The lexemes of a text in canonical spelling are those of the text, each in
    canonical spelling. -/
theorem lexemes_canonicalize (s : Text) :
    lexemes (Script.canonicalize s) = (lexemes s).map Lexeme.canonical := by
  -- Both sides expand to the same lexemes, and the parts of a canonical text are canonical.
  have hexpand : (lexemes (Script.canonicalize s)).map Lexeme.expand =
      (lexemes s).map Lexeme.expand := by
    simp only [lexemes, ← Lexer.lexemesFrom_expand, Script.expand_canonicalize]
  have hcanonical : ∀ l ∈ lexemes (Script.canonicalize s), l.canonical = l := by
    intro l hl
    have htext := (Lexer.cutsAll_lexemesFrom true (Script.canonicalize s)).2
    obtain ⟨before, after, hparts⟩ : l.text <:+: Script.canonicalize s := by
      rw [← htext, Lexer.textOf, List.flatMap_def]
      exact List.infix_of_mem_flatten (List.mem_map_of_mem hl)
    have hwhole : Script.IsCanonical (before ++ l.text ++ after) := by
      rw [hparts]
      exact Script.isCanonical_canonicalize s
    have hpart : Script.IsCanonical l.text := hwhole.left_of_append.right_of_append
    simp [Lexeme.canonical, Script.canonicalize_of_isCanonical hpart]
  calc lexemes (Script.canonicalize s)
    _ = (lexemes (Script.canonicalize s)).map Lexeme.canonical := by
        rw [List.map_congr_left hcanonical, List.map_id']
    _ = ((lexemes (Script.canonicalize s)).map Lexeme.expand).map Lexeme.canonical := by
        simp [Lexeme.canonical_expand]
    _ = (lexemes s).map Lexeme.canonical := by
        rw [hexpand]
        simp [Lexeme.canonical_expand]

end BanglaSource
