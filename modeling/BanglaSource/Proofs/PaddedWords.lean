-- SUMMARY: Blanks around a word change its identifier only if the word is a valid one with adjacent consonants.
import BanglaSource.Proofs.Identifiers
import BanglaSource.Proofs.Spelling

/-!
# Blanks around a word

Words and trimmed texts do not see the blanks around them. But a valid identifier
with blanks around it is no valid identifier any more: it is spelled like a foreign
word, and its clusters are filled. So blanks matter for the valid identifiers with
two adjacent consonant units, and for no other text.
-/
namespace BanglaSource

namespace Text

/-! ## Words -/

theorem words_append_cons {c : Char} (hc : isBlank c = true) (s t : Text) :
    words (s ++ c :: t) = words s ++ words t := by
  rw [words, List.splitOnP_append_cons s t hc, List.filter_append]
  rfl

/-- Blanks in front of a text belong to no word. -/
theorem words_append_of_isBlankText {left : Text} (h : isBlankText left = true) (s : Text) :
    words (left ++ s) = words s := by
  induction left with
  | nil => rfl
  | cons c left ih =>
    simp only [isBlankText, List.all_cons, Bool.and_eq_true] at h
    have hwords := words_append_cons h.1 [] (left ++ s)
    rwa [ih h.2] at hwords

/-- Blanks around a text belong to no word. -/
theorem words_padded {left right : Text} (hleft : isBlankText left = true)
    (hright : isBlankText right = true) (s : Text) : words (left ++ s ++ right) = words s := by
  rw [List.append_assoc, words_append_of_isBlankText hleft]
  cases right with
  | nil => rw [List.append_nil]
  | cons c right =>
    simp only [isBlankText, List.all_cons, Bool.and_eq_true] at hright
    have hnone : words right = words [] := by
      simpa using words_append_of_isBlankText hright.2 []
    rw [words_append_cons hright.1, hnone]
    exact List.append_nil _

/-- A text without blanks is one word. -/
theorem words_eq_singleton {s : Text} (hs : s ≠ []) (h : ∀ c ∈ s, isBlank c = false) :
    words s = [s] := by
  have hsplit : s.splitOnP isBlank = [s] := List.splitOnP_eq_singleton (by simpa using h)
  simp [words, hsplit, hs]

/-! ## Trimming -/

theorem trim_of_not_isBlank {s : Text} (h : ∀ c ∈ s, isBlank c = false) : trim s = s := by
  have hnone : ∀ t : Text, (∀ c ∈ t, isBlank c = false) → t.dropWhile isBlank = t := by
    intro t ht
    exact dropWhile_of_avoids fun c hc => ht c (List.mem_of_head? hc)
  rw [trim, hnone s h, hnone _ (by simpa using h), List.reverse_reverse]

/-- Blanks around a text are trimmed. -/
theorem trim_padded {left right : Text} (hleft : isBlankText left = true)
    (hright : isBlankText right = true) (s : Text) : trim (left ++ s ++ right) = trim s := by
  have hleft : ∀ c ∈ left, isBlank c = true := List.all_eq_true.1 hleft
  have hright : ∀ c ∈ right, isBlank c = true := List.all_eq_true.1 hright
  rw [trim, List.append_assoc, List.dropWhile_append_of_pos hleft, List.dropWhile_append, trim]
  split
  · next hempty =>
    have hnone : (right ++ []).dropWhile isBlank = [] := List.dropWhile_append_of_pos hright
    rw [List.append_nil] at hnone
    rw [List.isEmpty_iff.1 hempty, hnone]
  · rw [List.reverse_append, List.dropWhile_append_of_pos (by simpa using hright)]

end Text

namespace Identifier

/-! ## Foreign words -/

theorem not_isBlank_of_isPart {c : Char} (h : isPart c = true) : isBlank c = false :=
  Script.not_isBlank_of_isWordContinue (isWordContinue_of_isPart h)

theorem isValid_fill {word : Text} (h : isValid word = true) :
    isValid (Cluster.fill word) = true := by
  obtain ⟨c, s, rfl, hc, hs⟩ := (isValid_iff word).1 h
  obtain ⟨t, ht⟩ := Cluster.exists_fill_cons c s
  have hparts := isPart_fill (isPart_of_isValid h)
  rw [ht] at hparts ⊢
  exact (isValid_iff _).2 ⟨c, t, rfl, hc, fun d hd => hparts d (List.mem_cons_of_mem c hd)⟩

theorem guard_of_isValid {s : Text} (h : isValid s = true) :
    guard s = if Reserved.isReserved s then reservedMark ++ s else s := by
  obtain ⟨c, t, rfl, hc, -⟩ := (isValid_iff s).1 h
  unfold guard
  split
  · rfl
  · simp [not_isDigit_of_isStart hc]

/-- The vocabulary lists words with Bangla characters only. -/
theorem vocabulary_find?_of_not_hasBangla {word : Text} (h : Script.hasBangla word = false) :
    Vocabulary.find? word = none := by
  have htable : ∀ p ∈ Vocabulary.table, Script.hasBangla p.1 = true := by decide +kernel
  refine Option.eq_none_iff_forall_ne_some.2 fun latin hfind => ?_
  obtain ⟨before, after, heq, -⟩ := List.lookup_eq_some_iff.1 hfind
  have hmem : (Script.canonicalize word, latin) ∈ Vocabulary.index := by simp [heq]
  obtain ⟨⟨w, l⟩, hrow, hpair⟩ := List.mem_map.1 hmem
  have hspelling : Script.canonicalize w = Script.canonicalize word := (Prod.mk.inj hpair).1
  have hbangla := htable _ hrow
  rw [← Script.hasBangla_canonicalize, hspelling, Script.hasBangla_canonicalize, h] at hbangla
  cases hbangla

/-- A valid identifier that is spelled like a foreign word has its clusters filled. -/
theorem ofForeign_of_isValid {word : Text} (h : isValid word = true) :
    ofForeign word = guard (Cluster.fill word) := by
  have hparts := isPart_of_isValid h
  have hlatin := not_hasBangla_of_isPart hparts
  have htrim : Text.trim word = word :=
    Text.trim_of_not_isBlank fun c hc => not_isBlank_of_isPart (hparts c hc)
  have hspell : word.flatMap spellChar = word := by
    have hchar : ∀ c ∈ word, spellChar c = [c] := fun c hc => by simp [spellChar, hparts c hc]
    rw [List.flatMap_congr hchar, List.flatMap_singleton']
  rw [ofForeign, htrim, Script.canonicalize_of_not_hasBangla hlatin,
    vocabulary_find?_of_not_hasBangla hlatin, Option.getD_none, spell, hspell]

/-- The guard does not hide that clusters have been filled. -/
theorem guard_fill_eq_iff {word : Text} (h : isValid word = true) :
    guard (Cluster.fill word) = guard word ↔ Cluster.fill word = word := by
  refine ⟨fun heq => ?_, fun heq => by rw [heq]⟩
  rw [guard_of_isValid h, guard_of_isValid (isValid_fill h)] at heq
  split at heq <;> split at heq
  · exact List.append_cancel_left heq
  · next hfilled hword =>
    have hlength := congrArg List.length heq
    have hle := Cluster.length_le_length_fill word
    simp [reservedMark] at hlength
    omega
  · next hfilled hword =>
    have hmark : '_' ∈ Cluster.fill word := by simp [heq, reservedMark]
    have hmem := (Cluster.mem_fill hmark).resolve_left (by decide)
    rw [not_isReserved_of_mem hmem] at hword
    cases hword
  · exact heq

/-! ## Padded texts -/

theorem ofForeign_padded {left right : Text} (hleft : Text.isBlankText left = true)
    (hright : Text.isBlankText right = true) (word : Text) :
    ofForeign (left ++ word ++ right) = ofForeign word := by
  rw [ofForeign, Text.trim_padded hleft hright, ofForeign]

/-- Blanks that are part of an identifier are none at all. -/
theorem eq_nil_of_isBlankText {s pad : Text} (h : isValid s = true) (hpad : Text.isBlankText pad = true)
    (hsub : pad ⊆ s) : pad = [] := by
  refine List.eq_nil_iff_forall_not_mem.2 fun c hc => ?_
  have hblank := List.all_eq_true.1 hpad c hc
  rw [not_isBlank_of_isPart (isPart_of_isValid h c (hsub hc))] at hblank
  cases hblank

/-- A text that is not valid as it stands is read by its words. -/
theorem ofText_of_not_isValid {s : Text} (h : isValid s = false) :
    ofText s = match Text.words s with
      | w :: v :: ws => List.intercalate ['_'] ((w :: v :: ws).map ofWord)
      | _ => ofForeign s := by
  rw [ofText, h]
  rfl

theorem not_isValid_padded {left right : Text} (hleft : Text.isBlankText left = true)
    (hright : Text.isBlankText right = true) (hpad : ¬ (left = [] ∧ right = [])) (word : Text) :
    isValid (left ++ word ++ right) = false := by
  rw [← Bool.not_eq_true]
  intro hvalid
  exact hpad ⟨eq_nil_of_isBlankText hvalid hleft (by simp),
    eq_nil_of_isBlankText hvalid hright (by simp)⟩

/-- A valid identifier between blanks takes the route of foreign words. -/
theorem ofText_padded_of_isValid {left word right : Text} (hleft : Text.isBlankText left = true)
    (hright : Text.isBlankText right = true) (hpad : ¬ (left = [] ∧ right = []))
    (hword : isValid word = true) :
    ofText (left ++ word ++ right) = guard (Cluster.fill word) := by
  have hsingle : Text.words word = [word] := by
    refine Text.words_eq_singleton ?_ fun c hc =>
      not_isBlank_of_isPart (isPart_of_isValid hword c hc)
    rintro rfl
    cases hword
  rw [ofText_of_not_isValid (not_isValid_padded hleft hright hpad word),
    Text.words_padded hleft hright, hsingle, ofForeign_padded hleft hright]
  exact ofForeign_of_isValid hword

/-- Blanks around a text leave its identifier alone, unless there are some and the text
    is a valid identifier with two adjacent consonant units. -/
theorem ofText_padded_iff (left word right : Text) (hleft : Text.isBlankText left = true)
    (hright : Text.isBlankText right = true) :
    ofText (left ++ word ++ right) = ofText word ↔
      (left = [] ∧ right = []) ∨ isValid word = false ∨ ¬ Cluster.HasCluster word := by
  by_cases hpad : left = [] ∧ right = []
  · obtain ⟨rfl, rfl⟩ := hpad
    simp
  · cases hword : isValid word with
    | false =>
      have hsame : ofText (left ++ word ++ right) = ofText word := by
        rw [ofText_of_not_isValid (not_isValid_padded hleft hright hpad word),
          ofText_of_not_isValid hword, Text.words_padded hleft hright,
          ofForeign_padded hleft hright]
      exact iff_of_true hsame (.inr (.inl rfl))
    | true =>
      have hkept : ofText word = guard word := by rw [ofText, if_pos hword]
      rw [ofText_padded_of_isValid hleft hright hpad hword, hkept, guard_fill_eq_iff hword,
        Cluster.fill_eq_self_iff]
      simp [hpad]

theorem ofText_padded_iff_names :
    ofText ([' ', ' '] ++ "নাম".toList ++ ['\t']) = ofText "নাম" ∧
      ofText ([' '] ++ "krm".toList ++ []) ≠ ofText "krm" := by
  have hname := ofText_padded_iff [' ', ' '] "নাম" ['\t'] (by decide) (by decide)
  have hcluster := ofText_padded_iff [' '] "krm" [] (by decide) (by decide)
  refine ⟨hname.2 (.inr (.inl (by decide))), fun hsame => ?_⟩
  rcases hcluster.1 hsame with hpad | hinvalid | hnone
  · exact absurd hpad.1 (by decide)
  · exact absurd hinvalid (by decide)
  · exact hnone ⟨[], ['k'], ['r'], ['m'], rfl, Cluster.isUnit_singleton (by decide),
      Cluster.isUnit_singleton (by decide)⟩

/-- A valid identifier behind a blank has its clusters filled. -/
theorem ofText_padded_cluster :
    ofText " krm" = "karm" ∧ ofText "krm" = "krm" ∧
      ¬ ∀ left word right : Text, Text.isBlankText left = true → Text.isBlankText right = true →
        ofText (left ++ word ++ right) = ofText word := by
  have hpadded : ofText ([' '] ++ "krm".toList ++ []) = guard (Cluster.fill "krm") :=
    ofText_padded_of_isValid (by decide) (by decide) (by decide) (by decide)
  have hfilled : guard (Cluster.fill "krm") = "karm" := by decide +kernel
  have hplain : ofText "krm" = "krm" := by decide +kernel
  refine ⟨hpadded.trans hfilled, hplain, fun hall => ?_⟩
  have hsame := hall [' '] "krm" [] (by decide) (by decide)
  rw [hpadded, hfilled, hplain] at hsame
  exact absurd hsame (by decide)

end Identifier
end BanglaSource
