-- SUMMARY: Validation finds the brackets without a partner and the dandas, and its counts are excesses of the words of brackets.
import BanglaSource.Proofs.BracketWords
import Mathlib.Algebra.Ring.Nat

/-!
# Findings on brackets

Validation keeps a stack of open brackets for each kind. The stack always holds the
openers without a partner so far, the last one on top. So a closer meets an empty
stack exactly if it has no partner, and what is left at the end has none either.
-/
namespace BanglaSource

/-! ## Reports -/

namespace Report

theorem stored_foldl_push (ds : List Diagnostic) {r : Report} (h : r.stored.length ≤ maxStored) :
    (ds.foldl push r).stored = (r.stored ++ ds).take maxStored := by
  induction ds generalizing r with
  | nil => rw [List.foldl_nil, List.append_nil, List.take_of_length_le h]
  | cons d ds ih =>
    by_cases hroom : r.stored.length < maxStored
    · have hpush : (r.push d).stored = r.stored ++ [d] := if_pos hroom
      rw [List.foldl_cons, ih (by simp [hpush]; exact hroom), hpush, List.append_assoc,
        List.singleton_append]
    · have hpush : (r.push d).stored = r.stored := if_neg hroom
      have hfull : maxStored ≤ r.stored.length := Nat.le_of_not_lt hroom
      rw [List.foldl_cons, ih (by rwa [hpush]), hpush, List.take_append_of_le_length hfull,
        List.take_append_of_le_length hfull]

theorem stored_ofList (ds : List Diagnostic) : (ofList ds).stored = ds.take maxStored :=
  stored_foldl_push ds (Nat.zero_le _)

/-- How many diagnostics of a severity were pushed. -/
def count (r : Report) : Severity → Nat
  | .error => r.errorCount
  | .warning => r.warningCount

theorem count_push (r : Report) (d : Diagnostic) (severity : Severity) :
    (r.push d).count severity = r.count severity + if d.severity = severity then 1 else 0 := by
  cases severity <;> simp only [count, push] <;> split <;> rfl

theorem count_ofList (ds : List Diagnostic) (severity : Severity) :
    (ofList ds).count severity = ds.countP (·.severity = severity) := by
  have hfold : ∀ r : Report,
      (ds.foldl push r).count severity = r.count severity + ds.countP (·.severity = severity) := by
    induction ds with
    | nil => exact fun r => rfl
    | cons d ds ih =>
      intro r
      rw [List.foldl_cons, ih, count_push, List.countP_cons]
      simp only [decide_eq_true_eq]
      omega
  have hempty : empty.count severity = 0 := by cases severity <;> rfl
  rw [ofList, hfold, hempty, Nat.zero_add]

end Report

namespace Validation

open BanglaSource.Bracket (HasOpener largestExcess)

variable {b : Bracket} {t : Token}

/-! ## Marks -/

/-- Whether a token is a danda outside literals. -/
def IsDanda (t : Token) : Prop :=
  t.kind = .symbol ∧ t.text = ['\u0964']

instance (t : Token) : Decidable (IsDanda t) :=
  inferInstanceAs (Decidable (_ ∧ _))

/-- The character that stands for a mark. -/
def Mark.char : Mark → Char
  | .opening b => b.opener
  | .closing b => b.closer
  | .danda => Validation.danda

theorem Mark.ofChar?_eq_some_iff (c : Char) (m : Mark) : ofChar? c = some m ↔ c = m.char := by
  constructor
  · intro h
    unfold ofChar? at h
    split at h
    · next b hfind =>
      obtain rfl := Option.some.inj h
      simpa [char, eq_comm] using List.find?_some hfind
    · split at h
      · next b hfind =>
        obtain rfl := Option.some.inj h
        simpa [char, eq_comm] using List.find?_some hfind
      · split at h
        · next hdanda =>
          obtain rfl := Option.some.inj h
          exact hdanda
        · cases h
  · rintro rfl
    rcases m with (_ | _ | _) | (_ | _ | _) | _ <;> decide

theorem Mark.ofToken?_eq_some_iff (t : Token) (m : Mark) :
    ofToken? t = some m ↔ t.kind = .symbol ∧ t.text = [m.char] := by
  rw [ofToken?]
  split
  · next c hkind htext => simp [hkind, htext, ofChar?_eq_some_iff]
  · next hother =>
    refine iff_of_false (by simp) ?_
    rintro ⟨hkind, htext⟩
    exact hother _ hkind htext

theorem isDanda_iff (t : Token) : IsDanda t ↔ Mark.ofToken? t = some .danda :=
  (Mark.ofToken?_eq_some_iff t .danda).symm

theorem side?_eq_opening_iff (b : Bracket) (t : Token) :
    b.side? t = some .opening ↔ Mark.ofToken? t = some (.opening b) := by
  rw [Mark.ofToken?_eq_some_iff, Bracket.side?, Bracket.pair_eq, Mark.char]
  split
  · simp [*]
  · split <;> simp [*, b.opener_ne_closer.symm]

theorem side?_eq_closing_iff (b : Bracket) (t : Token) :
    b.side? t = some .closing ↔ Mark.ofToken? t = some (.closing b) := by
  rw [Mark.ofToken?_eq_some_iff, Bracket.side?, Bracket.pair_eq, Mark.char]
  split
  · next h => simp [h, b.opener_ne_closer]
  · split <;> simp [*]

/-! ## Stacks -/

/-- The stacks behind tokens: the spans of the openers without a partner so far. -/
def openSpans (ts : List Token) : OpenBrackets :=
  fun b => ((b.unclosed ts).map (·.span)).reverse

theorem openSpans_concat_of_ne (hopening : b.side? t ≠ some .opening)
    (hclosing : b.side? t ≠ some .closing) (ts : List Token) :
    openSpans (ts ++ [t]) b = openSpans ts b := by
  rw [openSpans, Bracket.unclosed_concat hclosing, Bracket.unclosed_cons_of_ne hopening,
    Bracket.unclosed, List.append_nil, openSpans]

theorem openSpans_concat_opening (h : Mark.ofToken? t = some (.opening b)) (ts : List Token) :
    openSpans (ts ++ [t]) = (openSpans ts).set b (t.span :: openSpans ts b) := by
  funext kind
  rw [OpenBrackets.set]
  split
  · next hkind =>
    obtain rfl := hkind
    have hside := (side?_eq_opening_iff kind t).2 h
    rw [openSpans, Bracket.unclosed_concat_of_opening hside, List.map_append, List.reverse_append]
    rfl
  · next hkind =>
    exact openSpans_concat_of_ne (by simpa [side?_eq_opening_iff, h] using Ne.symm hkind)
      (by simp [side?_eq_closing_iff, h]) ts

theorem openSpans_concat_closing (h : Mark.ofToken? t = some (.closing b)) (ts : List Token) :
    openSpans (ts ++ [t]) = (openSpans ts).set b (openSpans ts b).tail := by
  funext kind
  rw [OpenBrackets.set]
  split
  · next hkind =>
    obtain rfl := hkind
    have hside := (side?_eq_closing_iff kind t).2 h
    rw [openSpans, Bracket.unclosed_concat_of_closing hside, openSpans, List.map_dropLast,
      List.tail_reverse]
  · next hkind =>
    exact openSpans_concat_of_ne (by simp [side?_eq_opening_iff, h])
      (by simpa [side?_eq_closing_iff, h] using Ne.symm hkind) ts

theorem openSpans_concat_other (hopening : ∀ b, Mark.ofToken? t ≠ some (.opening b))
    (hclosing : ∀ b, Mark.ofToken? t ≠ some (.closing b)) (ts : List Token) :
    openSpans (ts ++ [t]) = openSpans ts := by
  funext b
  exact openSpans_concat_of_ne (by simp [side?_eq_opening_iff, hopening])
    (by simp [side?_eq_closing_iff, hclosing]) ts

theorem openSpans_eq_nil_iff (b : Bracket) (ts : List Token) :
    openSpans ts b = [] ↔ ¬ HasOpener b ts := by
  simp [openSpans, Bracket.hasOpener_iff]

/-! ## Findings -/

/-- The finding on a closer without a partner. -/
def unmatchedFinding (file : SourceFile) (t : Token) (b : Bracket) : Diagnostic where
  code := ⟨100⟩
  severity := .error
  stage := .source
  message := "unmatched closing ".toList ++ ['\x27', b.pair.2, '\x27']
  file := file.name
  span := t.span
  sourceLine := (file.line? t.span.startLine).getD []
  suggestion := none

/-- The finding on an opener without a partner. -/
def unclosedFinding (file : SourceFile) (t : Token) (b : Bracket) : Diagnostic where
  code := ⟨101⟩
  severity := .error
  stage := .source
  message := "unclosed opening ".toList ++ ['\x27', b.pair.1, '\x27']
  file := file.name
  span := t.span
  sourceLine := (file.line? t.span.startLine).getD []
  suggestion := some ("add a matching ".toList ++ ['\x27', b.pair.2, '\x27'])

/-- The finding on a danda. -/
def dandaFinding (file : SourceFile) (t : Token) : Diagnostic where
  code := ⟨102⟩
  severity := .warning
  stage := .source
  message := "danda is not a statement terminator"
  file := file.name
  span := t.span
  sourceLine := (file.line? t.span.startLine).getD []
  suggestion := some "use ';'".toList

theorem unmatched_eq (file : SourceFile) (b : Bracket) (t : Token) :
    unmatched file b t.span = unmatchedFinding file t b := by
  rw [unmatchedFinding, b.pair_eq]
  rfl

theorem unclosed_eq (file : SourceFile) (b : Bracket) (t : Token) :
    unclosed file b t.span = unclosedFinding file t b := by
  rw [unclosedFinding, b.pair_eq]
  rfl

theorem stray_eq (file : SourceFile) (t : Token) : stray file t.span = dandaFinding file t :=
  rfl

/-- The finding on a token behind `before`: a danda, or a closer without a partner. -/
def finding? (file : SourceFile) (before : List Token) (t : Token) : Option Diagnostic :=
  if IsDanda t then some (dandaFinding file t)
  else
    ([Bracket.round, .square, .curly].find? fun b =>
      b.side? t = some .closing ∧ ¬ HasOpener b before).map (unmatchedFinding file t)

/-- The findings on `ts`, which stand behind `before`, in order. -/
def findingsBehind (file : SourceFile) (before ts : List Token) : List Diagnostic :=
  (ts.inits.zip ts).filterMap fun p => finding? file (before ++ p.1) p.2

/-- The findings on openers without a partner, one for each kind, at the first of them. -/
def leftOpen (file : SourceFile) (ts : List Token) : List Diagnostic :=
  [Bracket.round, .square, .curly].filterMap fun b =>
    (b.unclosed ts).head?.map fun t => unclosedFinding file t b

theorem findingsBehind_cons (file : SourceFile) (before : List Token) (t : Token)
    (ts : List Token) :
    findingsBehind file before (t :: ts) =
      (finding? file before t).toList ++ findingsBehind file (before ++ [t]) ts := by
  rw [findingsBehind, List.inits, List.zip_cons_cons, List.zip_map_left, ← List.singleton_append,
    List.filterMap_append, List.filterMap_map, findingsBehind]
  congr 1
  · cases hfinding : finding? file before t <;> simp [hfinding]
  · simp

theorem finding?_closing (file : SourceFile) (before : List Token)
    (h : Mark.ofToken? t = some (.closing b)) :
    finding? file before t =
      if HasOpener b before then none else some (unmatchedFinding file t b) := by
  have hdanda : ¬ IsDanda t := by simp [isDanda_iff, h]
  simp only [finding?, hdanda, if_false, side?_eq_closing_iff, h, Option.some.injEq,
    Mark.closing.injEq]
  cases b <;> split <;> simp [*]

theorem finding?_of_ne (file : SourceFile) (before : List Token)
    (hdanda : Mark.ofToken? t ≠ some .danda) (hclosing : ∀ b, Mark.ofToken? t ≠ some (.closing b)) :
    finding? file before t = none := by
  simp [finding?, isDanda_iff, side?_eq_closing_iff, hdanda, hclosing]

/-- A closer takes the top of its stack, and is reported if there is none. -/
theorem findings_closing (file : SourceFile) (opened : OpenBrackets)
    (h : Mark.ofToken? t = some (.closing b)) (ts : List Token) :
    findings file opened (t :: ts) =
      (if opened b = [] then some (unmatchedFinding file t b) else none).toList ++
        findings file (opened.set b (opened b).tail) ts := by
  simp only [findings, h, unmatched_eq]
  cases hstack : opened b with
  | nil =>
    have hsame : opened.set b [] = opened := by
      funext kind
      rw [OpenBrackets.set]
      split
      · next hkind => rw [hkind, hstack]
      · rfl
    rw [List.tail_nil, hsame, if_pos rfl]
    rfl
  | cons span outer =>
    rw [if_neg (List.cons_ne_nil span outer)]
    rfl

/-- With the stacks of the tokens before, validation finds what has no partner. -/
theorem findings_openSpans (file : SourceFile) (before ts : List Token) :
    findings file (openSpans before) ts =
      findingsBehind file before ts ++ leftOpen file (before ++ ts) := by
  -- The stacks are given by the tokens before, so each step only has to move one token over.
  induction ts generalizing before with
  | nil =>
    rw [findings, List.append_nil]
    simp [findingsBehind, leftOpen, unclosedFindings, Bracket.all, openSpans, Function.comp_def,
      unclosed_eq]
  | cons t ts ih =>
    have hrest := ih (before ++ [t])
    rw [List.append_assoc, List.singleton_append] at hrest
    rw [findingsBehind_cons, List.append_assoc, ← hrest]
    cases hmark : Mark.ofToken? t with
    | none =>
      rw [finding?_of_ne file before (by simp [hmark]) (by simp [hmark]),
        openSpans_concat_other (by simp [hmark]) (by simp [hmark])]
      simp [findings, hmark]
    | some mark =>
      cases mark with
      | opening b =>
        rw [finding?_of_ne file before (by simp [hmark]) (by simp [hmark]),
          openSpans_concat_opening hmark]
        simp [findings, hmark]
      | closing b =>
        rw [findings_closing file (openSpans before) hmark, finding?_closing file before hmark,
          openSpans_concat_closing hmark]
        simp only [openSpans_eq_nil_iff, ite_not]
      | danda =>
        rw [finding?, if_pos ((isDanda_iff t).2 hmark),
          openSpans_concat_other (by simp [hmark]) (by simp [hmark])]
        simp [findings, hmark, stray_eq]

/-! ## Counts -/

@[simp] theorem severity_unmatchedFinding (file : SourceFile) (t : Token) (b : Bracket) :
    (unmatchedFinding file t b).severity = .error := rfl

@[simp] theorem severity_dandaFinding (file : SourceFile) (t : Token) :
    (dandaFinding file t).severity = .warning := rfl

/-- The sum over the kinds of the largest excess of closers. -/
def totalExcess (ts : List Token) : Nat :=
  (Bracket.all.map fun b => largestExcess (b.word ts)).sum

/-- A token that is no closer adds to no excess. -/
theorem totalExcess_concat_of_ne (h : ∀ b, Mark.ofToken? t ≠ some (.closing b))
    (ts : List Token) : totalExcess (ts ++ [t]) = totalExcess ts := by
  simp only [totalExcess, Bracket.largestExcess_word_concat, side?_eq_closing_iff, h, false_and,
    if_false, Nat.add_zero]

theorem totalExcess_concat_closing (h : Mark.ofToken? t = some (.closing b)) (ts : List Token) :
    totalExcess (ts ++ [t]) = totalExcess ts + if HasOpener b ts then 0 else 1 := by
  simp only [totalExcess, Bracket.largestExcess_word_concat, side?_eq_closing_iff, h,
    Option.some.injEq, Mark.closing.injEq, Bracket.all, List.map_cons, List.map_nil,
    List.sum_cons, List.sum_nil]
  cases b <;> simp <;> split <;> omega

theorem countP_error_findingsBehind (file : SourceFile) (before ts : List Token) :
    totalExcess before + (findingsBehind file before ts).countP (·.severity = .error) =
      totalExcess (before ++ ts) := by
  induction ts generalizing before with
  | nil => simp [findingsBehind]
  | cons t ts ih =>
    have hrest := ih (before ++ [t])
    rw [List.append_assoc, List.singleton_append] at hrest
    rw [findingsBehind_cons, List.countP_append, ← hrest]
    cases hmark : Mark.ofToken? t with
    | none =>
      rw [finding?_of_ne file before (by simp [hmark]) (by simp [hmark]),
        totalExcess_concat_of_ne (by simp [hmark])]
      simp
    | some mark =>
      cases mark with
      | opening b =>
        rw [finding?_of_ne file before (by simp [hmark]) (by simp [hmark]),
          totalExcess_concat_of_ne (by simp [hmark])]
        simp
      | closing b =>
        rw [finding?_closing file before hmark, totalExcess_concat_closing hmark]
        split <;> simp [Nat.add_assoc]
      | danda =>
        rw [finding?, if_pos ((isDanda_iff t).2 hmark), totalExcess_concat_of_ne (by simp [hmark])]
        simp

theorem countP_warning_findingsBehind (file : SourceFile) (before ts : List Token) :
    (findingsBehind file before ts).countP (·.severity = .warning) = ts.countP IsDanda := by
  induction ts generalizing before with
  | nil => rfl
  | cons t ts ih =>
    rw [findingsBehind_cons, List.countP_append, ih, List.countP_cons, finding?, Nat.add_comm]
    split
    · next h => simp [h]
    · next h =>
      rw [if_neg (by simpa using h)]
      cases List.find? _ _ <;> simp

theorem length_leftOpen (file : SourceFile) (ts : List Token) :
    (leftOpen file ts).length = Bracket.all.countP (·.unclosed ts ≠ []) := by
  rw [leftOpen, List.length_filterMap_eq_countP]
  refine List.countP_congr fun b _ => ?_
  simp

theorem severity_of_mem_leftOpen {file : SourceFile} {ts : List Token} {d : Diagnostic}
    (h : d ∈ leftOpen file ts) : d.severity = .error := by
  obtain ⟨b, -, hd⟩ := List.mem_filterMap.1 h
  obtain ⟨t, -, rfl⟩ := Option.map_eq_some_iff.1 hd
  rfl

theorem countP_leftOpen (file : SourceFile) (ts : List Token) (severity : Severity) :
    (leftOpen file ts).countP (·.severity = severity) =
      if severity = .error then Bracket.all.countP (·.unclosed ts ≠ []) else 0 := by
  split
  · next h =>
    rw [← length_leftOpen file, List.countP_eq_length]
    intro d hd
    simp [h, severity_of_mem_leftOpen hd]
  · next h =>
    rw [List.countP_eq_zero]
    intro d hd
    simpa [severity_of_mem_leftOpen hd] using Ne.symm h

end Validation

section
open Validation BanglaSource.Bracket

theorem validate_eq (source file : Text) :
    validate source file = .ofList
      (findingsBehind ⟨file, source⟩ [] (tokenize source) ++
        leftOpen ⟨file, source⟩ (tokenize source)) := by
  have hfindings := findings_openSpans ⟨file, source⟩ [] (tokenize source)
  rw [List.nil_append] at hfindings
  rw [validate, ← hfindings]
  rfl

theorem errorCount_validate (source file : Text) :
    (validate source file).errorCount =
      totalExcess (tokenize source) + Bracket.all.countP (·.unclosed (tokenize source) ≠ []) := by
  have hcount := Report.count_ofList (findingsBehind ⟨file, source⟩ [] (tokenize source) ++
    leftOpen ⟨file, source⟩ (tokenize source)) .error
  have hexcess := countP_error_findingsBehind ⟨file, source⟩ [] (tokenize source)
  have hnone : totalExcess [] = 0 := rfl
  rw [hnone, Nat.zero_add, List.nil_append] at hexcess
  rw [List.countP_append, hexcess, countP_leftOpen, if_pos rfl, ← validate_eq] at hcount
  exact hcount

theorem warningCount_validate (source file : Text) :
    (validate source file).warningCount = (tokenize source).countP IsDanda := by
  have hcount := Report.count_ofList (findingsBehind ⟨file, source⟩ [] (tokenize source) ++
    leftOpen ⟨file, source⟩ (tokenize source)) .warning
  rw [List.countP_append, countP_warning_findingsBehind, countP_leftOpen, if_neg (by decide),
    Nat.add_zero, ← validate_eq] at hcount
  exact hcount

/-- Nothing is counted if and only if the word of every kind is balanced. -/
theorem totalExcess_add_eq_zero_iff (ts : List Token) :
    totalExcess ts + Bracket.all.countP (·.unclosed ts ≠ []) = 0 ↔
      ∀ b : Bracket, Balanced (b.word ts) := by
  rw [Nat.add_eq_zero_iff, totalExcess, List.sum_eq_zero_iff_forall_eq_nat, List.forall_mem_map,
    List.countP_eq_zero, ← forall₂_and]
  simp [balanced_word_iff, mem_all]

/-- Validation reports no error if and only if the brackets of each kind are balanced.
    It counts, for each kind, the largest excess of closers and one more if an opener is
    never closed, and it warns of every danda. Of the findings, the first twenty are
    kept: closers without a partner and dandas in order, then for each kind the first
    opener without a partner. Each of them is at the span of its token. -/
theorem validate_decides_balance (source file : Text) :
    ((validate source file).hasErrors = false ↔
      ∀ b : Bracket, Balanced (b.word (tokenize source))) ∧
    (validate source file).errorCount =
      ([Bracket.round, .square, .curly].map fun b =>
        largestExcess (b.word (tokenize source))).sum +
      [Bracket.round, .square, .curly].countP (·.unclosed (tokenize source) ≠ []) ∧
    (validate source file).warningCount = (tokenize source).countP IsDanda ∧
    (validate source file).stored =
      (findingsBehind ⟨file, source⟩ [] (tokenize source) ++
        leftOpen ⟨file, source⟩ (tokenize source)).take 20 := by
  refine ⟨?_, errorCount_validate source file, warningCount_validate source file, ?_⟩
  · rw [← totalExcess_add_eq_zero_iff, ← errorCount_validate source file]
    simp [Report.hasErrors]
  · rw [validate_eq, Report.stored_ofList, Report.maxStored]

end
end BanglaSource
