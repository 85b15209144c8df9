-- SUMMARY: How the letters of a source are spelled changes neither keywords nor identifiers, and shows in the target text only as spelling.
import BanglaSource.Proofs.Relexing
import BanglaSource.Proofs.Respelling

/-!
# Spelling in the target text

Keywords and identifiers are functions of the canonical spelling of a word.
Everything else stands in the target text as it stands in the source. Where two
such pieces meet, they meet in the source as well, so no letter is put together
from two pieces.
-/
namespace BanglaSource

/-! ## Identifiers -/

namespace Script

/-- A text without letters that have two spellings is spelled in one way. -/
theorem expand_eq_self {p : Char → Bool} (hp : ∀ q ∈ pairs, p q.2.2 = false) {s : Text}
    (h : ∀ c ∈ s, p c = true) : expand s = s := by
  induction s with
  | nil => rfl
  | cons c s ih =>
    rw [List.forall_mem_cons] at h
    rw [expand_cons, decompose_eq_self hp h.1, ih h.2, List.singleton_append]

theorem trim_expand (s : Text) : Text.trim (expand s) = expand (Text.trim s) := by
  have hblank : Respects isBlank := respects_of_pairs (v := false) (by decide)
  -- From behind, a pair is met with its second half first.
  have hreverse : ∀ t : Text,
      (expand t).reverse = t.reverse.flatMap fun c => (decompose c).reverse := fun t =>
    List.reverse_flatMap
  have hblank' : ∀ c, ∀ x ∈ (decompose c).reverse, isBlank x = isBlank c := fun c x hx =>
    hblank c x (List.mem_reverse.1 hx)
  rw [Text.trim, dropWhile_expand hblank, hreverse,
    dropWhile_flatMap (by simp [decompose_ne_nil]) hblank', Text.trim, ← List.reverse_inj, hreverse]
  simp

theorem splitOnP_append_of_not {p : Char → Bool} {t : Text} (ht : ∀ c ∈ t, p c = false) (s : Text) :
    (t ++ s).splitOnP p = (s.splitOnP p).modifyHead (t ++ ·) := by
  induction t with
  | nil => exact (congrFun List.modifyHead_id _).symm
  | cons c t ih =>
    rw [List.forall_mem_cons] at ht
    rw [List.cons_append, List.splitOnP_cons_eq_if_modifyHead, ht.1, if_neg (by simp), ih ht.2,
      List.modifyHead_modifyHead]
    rfl

theorem words_expand (s : Text) : Text.words (expand s) = (Text.words s).map expand := by
  have hblank : Respects isBlank := respects_of_pairs (v := false) (by decide)
  have hsplit : (expand s).splitOnP isBlank = (s.splitOnP isBlank).map expand := by
    induction s with
    | nil => simp
    | cons c s ih =>
      by_cases hc : isBlank c = true
      · have hself : decompose c = [c] := decompose_eq_self (by decide) hc
        simp [hself, List.splitOnP_cons_eq_if_modifyHead, hc, ih]
      · have hnot : ∀ x ∈ decompose c, isBlank x = false := fun x hx =>
          (hblank c x hx).trans (by simpa using hc)
        rw [expand_cons, splitOnP_append_of_not hnot, ih, List.splitOnP_cons_eq_if_modifyHead,
          if_neg hc]
        cases s.splitOnP isBlank <;> simp
  have hempty : ∀ w : Text, (expand w).isEmpty = w.isEmpty := by
    intro w
    cases w with
    | nil => rfl
    | cons c w => simp [decompose_ne_nil]
  simp [Text.words, hsplit, List.filter_map, Function.comp_def, hempty]

end Script

namespace Identifier

open Script

theorem isValid_expand (s : Text) : isValid (expand s) = isValid s := by
  have hpart : Respects isPart := respects_of_pairs (v := false) (by decide)
  have hstart : ∀ q ∈ pairs, isStart q.1 = false ∧ isStart q.2.2 = false := by decide
  cases s with
  | nil => rfl
  | cons c s =>
    rcases decompose_cases c with hc | ⟨a, b, hab, hc⟩
    · simp [hc, isValid, all_expand hpart]
    · simp [hc, isValid, hstart _ (compose?_eq_some hab)]

theorem expand_of_isValid {s : Text} (h : isValid s = true) : expand s = s :=
  expand_eq_self (by decide) (isPart_of_isValid h)

theorem ofForeign_expand (s : Text) : ofForeign (expand s) = ofForeign s := by
  simp [ofForeign, trim_expand]

theorem ofWord_expand (s : Text) : ofWord (expand s) = ofWord s := by
  unfold ofWord
  rw [isValid_expand, ofForeign_expand]
  split
  · next h => rw [expand_of_isValid h]
  · rfl

/-- The identifier of a text does not depend on how its letters are spelled. -/
theorem ofText_expand (s : Text) : ofText (expand s) = ofText s := by
  unfold ofText
  rw [isValid_expand, words_expand, ofForeign_expand]
  split
  · next h => rw [expand_of_isValid h]
  · match Text.words s with
    | [] => rfl
    | [w] => rfl
    | w :: v :: ws => simp [ofWord_expand, Function.comp_def]

theorem ofText_canonicalize (s : Text) : ofText (canonicalize s) = ofText s := by
  rw [← ofText_expand, expand_canonicalize, ofText_expand]

theorem not_hasBangla_ofText (s : Text) : hasBangla (ofText s) = false :=
  not_hasBangla_of_isPart (isPart_of_isValid (isFree_ofText s).1)

end Identifier

/-! ## Target text -/

namespace Script

theorem latinDigits_expand (s : Text) : latinDigits (expand s) = expand (latinDigits s) := by
  have hdigits : ∀ q ∈ pairs, latinDigit q.1 = q.1 ∧ latinDigit q.2.1 = q.2.1 ∧
      latinDigit q.2.2 = q.2.2 := by
    decide
  have hchar : ∀ c, (decompose c).map latinDigit = decompose (latinDigit c) := by
    intro c
    rcases decompose_cases c with hc | ⟨a, b, hab, hc⟩
    · by_cases hdigit : isAnyDigit c = true
      · simp [hc, decompose_eq_self (p := Char.isDigit) (by decide) (isDigit_latinDigit hdigit)]
      · simp only [isAnyDigit, Bool.or_eq_true, not_or] at hdigit
        simp [latinDigit, banglaDigitValue?, hdigit.2, hc]
    · obtain ⟨ha, hb, hletter⟩ := hdigits _ (compose?_eq_some hab)
      simp [hc, ha, hb, hletter]
  simp [latinDigits, expand, List.map_flatMap, List.flatMap_map, hchar]

theorem not_hasBangla_latinDigits {s : Text} (h : ∀ c ∈ s, Lexer.isNumberPart c = true) :
    hasBangla (latinDigits s) = false := by
  refine List.any_eq_false.2 fun c hc => ?_
  rcases latinDigits_ascii h c hc with hdigit | rfl
  · have hpart : Identifier.isPart c = true := by simp [Identifier.isPart, Char.isAlphanum, hdigit]
    simp [Identifier.not_isBangla_of_isPart hpart]
  · decide

end Script

theorem Keyword.find?_canonicalize (word : Text) :
    Keyword.find? (Script.canonicalize word) = Keyword.find? word := by
  simp [Keyword.find?]

theorem Keyword.not_hasBangla_target : ∀ k ∈ table, Script.hasBangla k.target = false := by
  decide +kernel

namespace Lexeme

theorem expand_target_canonical (keepNames : Bool) (l : Lexeme) :
    Script.expand (l.canonical.target keepNames) = Script.expand (l.target keepNames) := by
  obtain ⟨kind, text⟩ := l
  cases kind with
  | word =>
    simp only [target, canonical, targetWord, Keyword.find?_canonicalize,
      Script.hasBangla_canonicalize, Identifier.ofText_canonicalize]
    cases Keyword.find? text with
    | some k => rfl
    | none =>
      dsimp only
      split
      · rfl
      · simp
  | number => simp [target, canonical, ← Script.latinDigits_expand]
  | _ => simp [target, canonical]

/-- The target of a lexeme is its text, or has no Bangla characters. -/
theorem target_eq_text_or_latin {inValue : Bool} {l : Lexeme} {rest : Text} (keepNames : Bool)
    (h : Lexer.Cuts inValue l rest) :
    l.target keepNames = l.text ∨ Script.hasBangla (l.target keepNames) = false := by
  have hcut := h
  cases h with
  | @word c s _ hc hs _ =>
    simp only [target, targetWord]
    cases hkeyword : Keyword.find? (c :: s) with
    | some k => exact .inr (Keyword.not_hasBangla_target k (Keyword.find?_eq_some hkeyword).1)
    | none =>
      dsimp only
      split
      · exact .inr (Identifier.not_hasBangla_ofText (c :: s))
      · exact .inl rfl
  | number => exact .inr (Script.not_hasBangla_latinDigits (hcut.isNumberPart_of_number rfl))
  | _ => exact .inl rfl

end Lexeme

/-- The target text of a canonical source is canonical: a pair that spells one letter
    could only come from two lexemes that stand in the source as they are. -/
theorem isCanonical_targetLexemes {inValue : Bool} {ls : List Lexeme} (keepNames : Bool)
    (h : Lexer.CutsAll inValue ls []) (hls : Script.IsCanonical (Lexer.textOf ls)) :
    Script.IsCanonical (targetLexemes keepNames ls) := by
  have htext : [] ∉ ls.map (·.text) := by
    simpa using h.text_ne_nil
  have htarget : [] ∉ ls.map (·.target keepNames) := by
    intro hmem
    obtain ⟨l, hl, heq⟩ := List.mem_map.1 hmem
    obtain ⟨_, _, hcut⟩ := h.exists_cuts l hl
    obtain ⟨_, _, _, _, _, htarget, -⟩ := Lexer.first_target keepNames hcut
    simp [htarget] at heq
  have hkept : ∀ l ∈ ls, ∀ x ∈ l.target keepNames, Script.isBangla x = true →
      l.target keepNames = l.text := by
    intro l hl x hx hbangla
    obtain ⟨_, _, hcut⟩ := h.exists_cuts l hl
    refine (l.target_eq_text_or_latin keepNames hcut).resolve_right fun hlatin => ?_
    exact List.any_eq_false.1 hlatin x hx hbangla
  rw [Script.IsCanonical, Lexer.textOf, List.flatMap_def, List.isChain_flatten htext] at hls
  rw [Script.IsCanonical, targetLexemes, List.flatMap_def, List.isChain_flatten htarget]
  refine ⟨?_, ?_⟩
  · intro t ht
    obtain ⟨l, hl, rfl⟩ := List.mem_map.1 ht
    obtain ⟨_, _, hcut⟩ := h.exists_cuts l hl
    rcases l.target_eq_text_or_latin keepNames hcut with heq | hlatin
    · rw [heq]
      exact hls.1 _ (List.mem_map_of_mem hl)
    · exact Script.isCanonical_of_not_hasBangla hlatin
  · rw [List.isChain_map]
    refine List.IsChain.imp_of_mem_imp ?_ ((List.isChain_map _).1 hls.2)
    intro l m hl hm hboundary x hx y hy
    cases hcompose : Script.compose? x y with
    | none => rfl
    | some c =>
      obtain ⟨hxb, hyb, -⟩ := Script.isBangla_of_compose? hcompose
      rw [hkept l hl x (List.mem_of_getLast? hx) hxb] at hx
      rw [hkept m hm y (List.mem_of_head? hy) hyb] at hy
      rw [← hcompose]
      exact hboundary x hx y hy

theorem targetText_canonicalize (keepNames : Bool) (s : Text) :
    targetText keepNames (Script.canonicalize s) =
      Script.canonicalize (targetText keepNames s) := by
  have hexpand : Script.expand (targetText keepNames (Script.canonicalize s)) =
      Script.expand (targetText keepNames s) := by
    have hlexeme := funext (Lexeme.expand_target_canonical keepNames)
    rw [targetText, targetText, lexemes_canonicalize]
    simp only [Script.expand] at hlexeme
    simp only [targetLexemes, Script.expand, List.flatMap_map, List.flatMap_assoc, hlexeme]
  have hcanonical : Script.IsCanonical (targetText keepNames (Script.canonicalize s)) := by
    obtain ⟨hcuts, htext⟩ := Lexer.cutsAll_lexemesFrom true (Script.canonicalize s)
    exact isCanonical_targetLexemes keepNames hcuts
      (htext.symm ▸ Script.isCanonical_canonicalize s)
  calc targetText keepNames (Script.canonicalize s)
    _ = Script.canonicalize (targetText keepNames (Script.canonicalize s)) :=
        (Script.canonicalize_of_isCanonical hcanonical).symm
    _ = Script.canonicalize (Script.expand (targetText keepNames (Script.canonicalize s))) :=
        (Script.canonicalize_expand _).symm
    _ = Script.canonicalize (targetText keepNames s) := by
        rw [hexpand, Script.canonicalize_expand]

/-- Sources that differ only in the spelling of letters are cut into tokens of the
    same kinds, with the same keywords and identifiers. Bringing the source into
    canonical spelling does the same to every token and to the target text, and
    nothing else. -/
theorem tokenize_spelling_insensitive (keepNames : Bool) (s : Text) :
    (tokenize (Script.canonicalize s)).map Token.toLexeme =
      (tokenize s).map (fun t => ⟨t.kind, Script.canonicalize t.text⟩) ∧
    targetText keepNames (Script.canonicalize s) =
      Script.canonicalize (targetText keepNames s) ∧
    ∀ s', Script.canonicalize s' = Script.canonicalize s →
      (tokenize s').map (·.kind) = (tokenize s).map (·.kind) ∧
      (tokenize s').map (Keyword.find? ·.text) = (tokenize s).map (Keyword.find? ·.text) ∧
      (tokenize s').map (Identifier.ofText ·.text) =
        (tokenize s).map (Identifier.ofText ·.text) := by
  have hmap : ∀ {α : Type} (f : Lexeme → α) (s : Text),
      (tokenize s).map (fun t => f t.toLexeme) = (lexemes s).map f := by
    intro α f s
    rw [← map_toLexeme_tokenize, List.map_map]
    rfl
  refine ⟨?_, targetText_canonicalize keepNames s, fun s' hs' => ?_⟩
  · rw [map_toLexeme_tokenize, lexemes_canonicalize]
    exact (hmap Lexeme.canonical s).symm
  · have hsame : (lexemes s').map Lexeme.canonical = (lexemes s).map Lexeme.canonical := by
      rw [← lexemes_canonicalize, hs', lexemes_canonicalize]
    have hagree : ∀ {α : Type} (f : Lexeme → α), (∀ l, f l.canonical = f l) →
        (tokenize s').map (fun t => f t.toLexeme) = (tokenize s).map fun t => f t.toLexeme := by
      intro α f hf
      have hcanonical : ∀ s, (lexemes s).map f = ((lexemes s).map Lexeme.canonical).map f := by
        simp [hf]
      rw [hmap, hmap, hcanonical s', hsame, ← hcanonical]
    exact ⟨hagree Lexeme.kind fun _ => rfl,
      hagree (Keyword.find? ·.text) fun l => Keyword.find?_canonicalize l.text,
      hagree (Identifier.ofText ·.text) fun l => Identifier.ofText_canonicalize l.text⟩

/-- A keyword, a pattern and a name, their letters spelled with two characters. -/
def spelledOut : Text := "ছুড\u09bcে_দাও /\\ড\u09bc/g; গাড\u09bcি"

theorem tokenize_spelling_insensitive_spelledOut :
    spelledOut ≠ Script.canonicalize spelledOut ∧
    Script.canonicalize spelledOut = Script.canonicalize (Script.canonicalize spelledOut) ∧
    (tokenize spelledOut).map (·.kind) =
      (tokenize (Script.canonicalize spelledOut)).map (·.kind) := by
  have hspelling : spelledOut ≠ Script.canonicalize spelledOut := by decide
  have hcanonical : Script.canonicalize spelledOut =
      Script.canonicalize (Script.canonicalize spelledOut) := by decide
  exact ⟨hspelling, hcanonical,
    ((tokenize_spelling_insensitive false (Script.canonicalize spelledOut)).2.2 spelledOut
      hcanonical).1⟩

end BanglaSource
