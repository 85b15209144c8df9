-- SUMMARY: Closed literals do not depend on what follows them, and whether a pattern closes is a fold over its characters.
import BanglaSource.Proofs.Cuts

/-!
# Literals in context

Where a literal is closed, the text behind it can be exchanged without moving its
end. Whether a pattern is closed at all depends on the rest of its line, but only
through the few characters that the scanner looks at: the scanner is a small
automaton, and characters that it does not look at are all alike to it.
-/
namespace BanglaSource.Literal

/-! ## Closed literals -/

theorem closeString_exchange {quote : Char} {s inside rest : Text}
    (h : closeString quote s = (inside, rest)) (hrest : rest ≠ []) (rest' : Text) :
    closeString quote (inside ++ rest') = (inside, rest') := by
  fun_induction closeString quote s generalizing inside rest with
  | case1 => simp_all
  | case2 c s inside₀ rest₀ hclose ih =>
    cases h
    simp [closeString, ih hclose hrest]
  | case3 s hescape =>
    cases h
    have hquote : quote ≠ '\\' := by
      rintro rfl
      obtain ⟨c, s, rfl⟩ := List.exists_cons_of_ne_nil hrest
      exact hescape c s rfl rfl
    simp [closeString, hquote]
  | case4 c s hescape hc inside₀ rest₀ hclose ih =>
    cases h
    have hbackslash : c ≠ '\\' := by
      rintro rfl
      cases s with
      | nil => simp [closeString] at hclose; simp_all
      | cons d s => exact hescape d s rfl rfl
    simp [closeString, hbackslash, hc, ih hclose hrest]

theorem closeComment_eq_nil {s rest : Text} (h : closeComment s = ([], rest)) : rest = [] := by
  unfold closeComment at h
  split at h <;> simp_all

theorem closeComment_exchange {s inside rest : Text} (h : closeComment s = (inside, rest))
    (hrest : rest ≠ []) (rest' : Text) : closeComment (inside ++ rest') = (inside, rest') := by
  fun_induction closeComment s generalizing inside rest with
  | case1 => simp_all
  | case2 s => cases h; simp [closeComment]
  | case3 c s hopen inside₀ rest₀ hclose ih =>
    cases h
    -- A star at `c` still has no slash behind it: the first character behind it is the old one.
    have hopen' : ∀ t, c = '*' → inside₀ ++ rest' = '/' :: t → False := by
      intro t hstar hslash
      cases inside₀ with
      | nil => exact hrest (closeComment_eq_nil hclose)
      | cons d inside₀ =>
        have happend := closeComment_append s
        rw [hclose] at happend
        rw [List.cons_append, List.cons.injEq] at hslash
        exact hopen (inside₀ ++ rest₀) hstar (by rw [← happend, hslash.1]; rfl)
    rw [List.cons_append, closeComment.eq_3 _ _ hopen', ih hclose hrest]

theorem closeBody_cons {c : Char} (inClass : Bool) (s : Text) (h : c ≠ '\\') :
    closeBody inClass (c :: s) =
      if isLineEnd c then none
      else if c = '/' && !inClass then some ([c], s)
      else (closeBody (classAfter inClass c) s).map fun (inside, rest) => (c :: inside, rest) :=
  closeBody.eq_3 _ _ _ fun _ _ hc _ => h hc

theorem closeBody_exchange {inClass : Bool} {s inside rest : Text}
    (h : closeBody inClass s = some (inside, rest)) (rest' : Text) :
    closeBody inClass (inside ++ rest') = some (inside, rest') := by
  fun_induction closeBody inClass s generalizing inside rest with
  | case1 => simp at h
  | case2 inClass c s hend => simp at h
  | case3 inClass c s hend ih =>
    obtain ⟨⟨i, r⟩, hi, hr⟩ := Option.map_eq_some_iff.1 h
    cases hr
    simp [closeBody, hend, ih hi]
  | case4 inClass c s hescape hend => simp at h
  | case5 inClass c s hescape hend hslash =>
    cases h
    simp only [Bool.and_eq_true, decide_eq_true_eq] at hslash
    obtain ⟨rfl, hclass⟩ := hslash
    simp [closeBody, hend, hclass]
  | case6 inClass c s hescape hend hslash ih =>
    obtain ⟨⟨i, r⟩, hi, hr⟩ := Option.map_eq_some_iff.1 h
    cases hr
    have hbackslash : c ≠ '\\' := by
      rintro rfl
      cases s with
      | nil => simp [closeBody] at hi
      | cons d s => exact hescape d s rfl rfl
    rw [List.cons_append, closeBody_cons inClass _ hbackslash]
    simp [hend, hslash, ih hi]

/-- A closed pattern with other text behind it takes the flags of that text in
    addition to its own. -/
theorem closePattern_exchange {s inside rest : Text}
    (h : closePattern s = some (inside, rest)) (rest' : Text) :
    closePattern (inside ++ rest') =
      some (inside ++ rest'.takeWhile isFlag, rest'.dropWhile isFlag) := by
  simp only [closePattern, Option.map_eq_some_iff, Prod.exists, Prod.mk.injEq] at h
  obtain ⟨body, after, hbody, rfl, rfl⟩ := h
  have hflags : ∀ c ∈ after.takeWhile isFlag, isFlag c = true :=
    fun c hc => Lexer.mem_takeWhile hc
  rw [closePattern, List.append_assoc, closeBody_exchange hbody]
  simp [List.takeWhile_append_of_pos hflags, List.dropWhile_append_of_pos hflags]

theorem closePattern_avoids {s inside rest : Text}
    (h : closePattern s = some (inside, rest)) : rest.Avoids isFlag := by
  simp only [closePattern, Option.map_eq_some_iff, Prod.exists, Prod.mk.injEq] at h
  obtain ⟨body, after, -, -, rfl⟩ := h
  exact Text.avoids_dropWhile _ _

theorem closePattern_ne_nil {s inside rest : Text}
    (h : closePattern s = some (inside, rest)) : inside ≠ [] := by
  simp only [closePattern, Option.map_eq_some_iff, Prod.exists, Prod.mk.injEq] at h
  obtain ⟨body, after, hbody, rfl, -⟩ := h
  unfold closeBody at hbody
  grind [Option.map_eq_some_iff]

/-! ## The scanner as an automaton -/

/-- How far the scan for the closing slash has come. -/
inductive Progress where
  | inside (inClass : Bool)
  /-- The next character is escaped. -/
  | escaped (inClass : Bool)
  | closed
  /-- The line ended before. -/
  | broken
deriving DecidableEq, Repr

namespace Progress

def next : Progress → Char → Progress
  | inside inClass, c =>
    if isLineEnd c then broken
    else if c = '\\' then escaped inClass
    else if c = '/' && !inClass then closed
    else inside (classAfter inClass c)
  | escaped inClass, c => if isLineEnd c then broken else inside inClass
  | closed, _ => closed
  | broken, _ => broken

/-- The progress after characters that the scan does not look at, one at least. -/
def resume : Progress → Progress
  | escaped inClass => inside inClass
  | p => p

@[simp] theorem foldl_next_closed (s : Text) : s.foldl next closed = closed := by
  induction s with
  | nil => rfl
  | cons c s ih => exact ih

@[simp] theorem foldl_next_broken (s : Text) : s.foldl next broken = broken := by
  induction s with
  | nil => rfl
  | cons c s ih => exact ih

end Progress

theorem isSome_closeBody_iff (inClass : Bool) (s : Text) :
    (closeBody inClass s).isSome = true ↔ s.foldl Progress.next (.inside inClass) = .closed := by
  have hbackslash : isLineEnd '\\' = false := by decide
  fun_induction closeBody inClass s with
  | case1 => simp
  | case2 inClass c s hend => simp [Progress.next, hbackslash, hend]
  | case3 inClass c s hend ih => simp [Progress.next, hbackslash, hend, ih]
  | case4 inClass c s hescape hend => simp [Progress.next, hend]
  | case5 inClass c s hescape hend hslash =>
    simp only [Bool.and_eq_true, decide_eq_true_eq] at hslash
    obtain ⟨rfl, hclass⟩ := hslash
    simp [Progress.next, hend, hclass]
  | case6 inClass c s hescape hend hslash ih =>
    by_cases hc : c = '\\'
    · -- A backslash that nothing follows closes nothing.
      subst hc
      cases s with
      | nil => simp [closeBody, Progress.next, hbackslash]
      | cons d s => exact absurd rfl (hescape d s rfl)
    · simp [Progress.next, hend, hc, hslash, ih]

theorem closePattern_eq_none_iff (s : Text) :
    closePattern s = none ↔ s.foldl Progress.next (.inside false) ≠ .closed := by
  rw [closePattern, Option.map_eq_none_iff, ← Option.not_isSome_iff_eq_none,
    isSome_closeBody_iff]

/-! ## Characters that are all alike -/

/-- Whether the scan for the closing slash does not look at `c`. -/
def isPlain (c : Char) : Bool :=
  !(isLineEnd c || c == '\\' || c == '/' || c == '[' || c == ']')

theorem next_plain {c : Char} (h : isPlain c = true) (p : Progress) :
    p.next c = p.resume := by
  simp only [isPlain, Bool.not_eq_true', Bool.or_eq_false_iff, beq_eq_false_iff_ne] at h
  obtain ⟨⟨⟨⟨hend, hbackslash⟩, hslash⟩, hopen⟩, hclose⟩ := h
  cases p <;> simp [Progress.next, Progress.resume, classAfter, *]

/-- All texts of plain characters have the same effect, unless they are empty. -/
theorem foldl_next_plain {s : Text} (h : ∀ c ∈ s, isPlain c = true) (hs : s ≠ [])
    (p : Progress) : s.foldl Progress.next p = p.resume := by
  induction s generalizing p with
  | nil => exact absurd rfl hs
  | cons c s ih =>
    rw [List.foldl_cons, next_plain (h c List.mem_cons_self)]
    cases s with
    | nil => rfl
    | cons d s =>
      rw [ih (fun x hx => h x (List.mem_cons_of_mem _ hx)) (List.cons_ne_nil _ _)]
      cases p <;> rfl

theorem isPlain_of_isWordContinue {c : Char} (h : Script.isWordContinue c = true) :
    isPlain c = true := by
  have hne : ∀ d, Script.isWordContinue d = false → (c == d) = false := fun d hd =>
    beq_eq_false_iff_ne.2 (Script.ne_of_isWordContinue h hd)
  simp only [isPlain, isLineEnd, hne '\n' (by decide), hne '\r' (by decide),
    hne '\\' (by decide), hne '/' (by decide), hne '[' (by decide), hne ']' (by decide)]
  rfl

theorem isPlain_of_isNumberPart {c : Char} (h : Lexer.isNumberPart c = true) :
    isPlain c = true := by
  simp only [Lexer.isNumberPart, Bool.or_eq_true, beq_iff_eq] at h
  rcases h with h | rfl
  · exact isPlain_of_isWordContinue (Script.isWordContinue_of_isAnyDigit h)
  · decide

end BanglaSource.Literal
