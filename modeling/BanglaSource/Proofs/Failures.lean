-- SUMMARY: A transpilation that fails leaves the cache as it was and names the line of the target text that holds the refused byte.
import BanglaSource.Proofs.CacheTiers
import BanglaSource.Proofs.LineBytes
import BanglaSource.Proofs.TargetLines

/-!
# Failed transpilations

A transpilation fails exactly if its source is not blank, the cache has no answer and
the backend refuses the target text. A lookup without an answer changes neither tier,
whatever it met on the disk, and nothing is stored after a refusal. The byte offset of
the refusal, if it has one, becomes a line of the target text and the place of the
diagnostic.
-/
namespace BanglaSource

/-! ## Places of failures -/

namespace Failure

/-- An offset becomes the line on which it lies, and the diagnostic shows that line. -/
theorem toDiagnostic_ofRefusal_of_some (target : SourceFile) {r : Refusal} {offset : Nat}
    (h : r.offset = some offset) :
    (ofRefusal target r).line = some (target.lineOfOffset offset) ∧
    ((ofRefusal target r).toDiagnostic target).span =
      ⟨target.lineOfOffset offset, 1, target.lineOfOffset offset, 1⟩ ∧
    target.line? (target.lineOfOffset offset) =
      some ((ofRefusal target r).toDiagnostic target).sourceLine := by
  have hline : (ofRefusal target r).line = some (target.lineOfOffset offset) := by
    simp [ofRefusal, h]
  obtain ⟨line, -, htext⟩ := target.exists_line?_lineOfOffset offset
  simp [toDiagnostic, Diagnostic.moveTo, Span.point, hline, htext]

theorem toDiagnostic_ofRefusal_of_none (target : SourceFile) {r : Refusal} (h : r.offset = none) :
    (ofRefusal target r).line = none ∧
    ((ofRefusal target r).toDiagnostic target).span = ⟨1, 1, 1, 1⟩ ∧
    ((ofRefusal target r).toDiagnostic target).sourceLine = [] := by
  simp [toDiagnostic, Diagnostic.moveTo, Span.point, ofRefusal, h]

end Failure

/-! ## Runs that fail -/

namespace Pipeline

theorem compile_eq_error_iff {backend : Backend} {source file : Text} {keepNames : Bool}
    {failure : Failure} :
    compile backend source file keepNames = .error failure ↔
      ∃ r, backend (targetText keepNames source) file = .error r ∧
        failure = .ofRefusal ⟨file, targetText keepNames source⟩ r := by
  rw [compile]
  split
  · next r hr => simp [hr, eq_comm]
  · next c hc => simp [hc]

/-- A lookup without an answer leaves both tiers as they were. -/
theorem state_lookup_of_value_eq_none {p : Pipeline} {useCache : Bool} {r : Request}
    (h : (p.lookup useCache r).value = none) : (p.lookup useCache r).state = p := by
  cases useCache with
  | false => rfl
  | true =>
    have hvalue : (p.cache.get r.source r.keyOptions).value = none := h
    have hstate : (p.cache.get r.source r.keyOptions).state = p.cache := by
      rcases p.cache.get_cases r.source r.keyOptions with
        ⟨-, hstate⟩ | ⟨e, hfound, -⟩ | ⟨e, hfound, -⟩
      · exact hstate
      · rw [hvalue] at hfound
        cases hfound
      · rw [hvalue] at hfound
        cases hfound
    exact congrArg (fun c => { p with cache := c }) hstate

section Transpile

variable {p : Pipeline} {now : Nat} {source file : Text} {options : Options} {failure : Failure}

theorem transpile_eq_error_iff :
    (p.transpile now source file options).value = .error failure ↔
      Text.isBlankText source = false ∧
      (p.lookup options.useCache (.transpile source file options.keepNames)).value = none ∧
      compile p.backend source file options.keepNames = .error failure := by
  cases hblank : Text.isBlankText source with
  | true => simp [transpile, hblank]
  | false =>
    simp only [transpile, hblank, Bool.false_eq_true, if_false]
    split
    · next e hfound => simp [hfound]
    · next hmiss =>
      rw [state_lookup_of_value_eq_none hmiss]
      split
      · next failure' hfailure => simp [hmiss, hfailure]
      · next c hc => simp [hmiss, hc]

theorem state_transpile_of_error
    (h : (p.transpile now source file options).value = .error failure) :
    (p.transpile now source file options).state = { p with calls := p.calls + 1 } := by
  obtain ⟨hblank, hmiss, hfailure⟩ := transpile_eq_error_iff.1 h
  simp [transpile, hblank, hmiss, state_lookup_of_value_eq_none hmiss, hfailure]

end Transpile

/-- A transpilation that fails has called the backend once and changed nothing else: both
    tiers, the pending writes and the settings of the cache are as before. If the backend
    gave an offset, the failure names the line of the target text behind as many line
    feeds as stand before the offset, and its diagnostic shows that line from its first
    column. Without an offset it names none. -/
theorem transpile_failure (p : Pipeline) (now : Nat) (source file : Text) (options : Options)
    (failure : Failure) (h : (p.transpile now source file options).value = .error failure)
    (target : SourceFile) (htarget : target.text = targetText options.keepNames source) :
    (p.transpile now source file options).state = { p with calls := p.calls + 1 } ∧
    ∃ refusal, p.backend target.text file = .error refusal ∧
      failure.message = refusal.message ∧
      (∀ offset, refusal.offset = some offset →
        ∃ n line, failure.line = some n ∧ 1 ≤ n ∧ n ≤ target.lineCount ∧
          n - 1 = ((Text.bytes target.text).take (min offset (Text.byteLength target.text))).count
            Text.feedByte ∧
          (Text.lines target.text)[n - 1]? = some line ∧
          target.line? n = some (SourceFile.stripReturn line) ∧
          (failure.toDiagnostic target).span = ⟨n, 1, n, 1⟩ ∧
          (failure.toDiagnostic target).sourceLine = SourceFile.stripReturn line) ∧
      (refusal.offset = none →
        failure.line = none ∧ (failure.toDiagnostic target).span = ⟨1, 1, 1, 1⟩ ∧
        (failure.toDiagnostic target).sourceLine = []) := by
  obtain ⟨-, -, hcompile⟩ := transpile_eq_error_iff.1 h
  obtain ⟨refusal, hrefusal, rfl⟩ := compile_eq_error_iff.1 hcompile
  -- The name of the target text does not matter for its lines.
  have hname : Failure.ofRefusal ⟨file, targetText options.keepNames source⟩ refusal =
      .ofRefusal target refusal := by
    rw [← htarget]
    rfl
  rw [hname] at h ⊢
  refine ⟨state_transpile_of_error h, refusal, htarget ▸ hrefusal, rfl, fun offset hoffset => ?_,
    Failure.toDiagnostic_ofRefusal_of_none target⟩
  obtain ⟨hline, hspan, hsource⟩ := Failure.toDiagnostic_ofRefusal_of_some target hoffset
  obtain ⟨line, hpiece, htext⟩ := target.exists_line?_lineOfOffset offset
  have hcount : target.lineOfOffset offset - 1 = ((Text.bytes target.text).take
      (min offset (Text.byteLength target.text))).count Text.feedByte := by
    rw [← Text.length_bytes, ← List.take_eq_take_min, SourceFile.lineOfOffset_eq,
      Nat.add_sub_cancel]
  refine ⟨_, line, hline, ?_, target.lineOfOffset_le_lineCount offset, hcount, hpiece, htext,
    hspan, ?_⟩
  · rw [SourceFile.lineOfOffset_eq]
    omega
  · exact Option.some.inj (hsource.symm.trans htext)

/-- A backend that refuses everything, at the second byte of the second line of a string
    over two lines. -/
def refusing : Backend :=
  fun _ _ => .error ⟨"unexpected", some 6⟩

/-- A cache with an entry for another request in memory, on disk a file under the name of
    the request that is no text, and a pending write over this file. -/
def spoiledCache (r : Request) : Cache where
  memory := ⟨1, [('x' :: r.key, .new 3 .null "old" none)], ['x' :: r.key]⟩
  directory := .present [(Disk.entryName r.key, .file (.binary ⟨#[255]⟩))]
  pending := [⟨r.key, .new 4 r.keyOptions "late" none⟩]
  maxAge := 0
  enabled := true

theorem transpile_failure_spoiledCache :
    let p : Pipeline := ⟨refusing, spoiledCache (.transpile stringOverLines "main" false), 4⟩
    let failure : Failure := ⟨some 2, "unexpected"⟩
    let target : SourceFile := ⟨"main", targetText false stringOverLines⟩
    (p.transpile 5 stringOverLines "main" {}).value = .error failure ∧
    (p.transpile 5 stringOverLines "main" {}).state = { p with calls := 5 } ∧
    (failure.toDiagnostic target).span = ⟨2, 1, 2, 1⟩ ∧
    target.line? 2 = some (failure.toDiagnostic target).sourceLine := by
  intro p failure target
  have hmiss : (p.lookup true (.transpile stringOverLines "main" false)).value = none := by
    let r : Request := .transpile stringOverLines "main" false
    rcases (spoiledCache r).get_cases r.source r.keyOptions with
      ⟨hnone, -⟩ | ⟨e, -, -, hmemory⟩ | ⟨e, -, -, -, hdisk⟩
    · exact hnone
    · have hother : (spoiledCache r).memory.get? r.key = none := by
        simp [spoiledCache, Memory.get?, Assoc.find?]
      cases hother.symm.trans hmemory
    · have hspoiled : Disk.read (spoiledCache r).directory r.key = .unusable := by
        simp [spoiledCache, Disk.read, Directory.read, Assoc.find?]
      cases hspoiled.symm.trans hdisk
  have hcompile : compile p.backend stringOverLines "main" false = .error failure := by
    refine compile_eq_error_iff.2 ⟨_, rfl, ?_⟩
    decide +kernel
  have hfails : (p.transpile 5 stringOverLines "main" {}).value = .error failure :=
    transpile_eq_error_iff.2 ⟨by decide, hmiss, hcompile⟩
  obtain ⟨hstate, refusal, hrefusal, -, hplace, -⟩ :=
    transpile_failure p 5 stringOverLines "main" {} failure hfails target rfl
  have hoffset : refusal.offset = some 6 := by
    cases hrefusal
    rfl
  obtain ⟨n, line, hn, -, -, -, -, hline, hspan, hsource⟩ := hplace 6 hoffset
  cases hn
  exact ⟨hfails, hstate, hspan, hsource ▸ hline⟩

end Pipeline
end BanglaSource
