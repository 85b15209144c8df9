-- SUMMARY: The grammar of pattern literals, and the scanner as its recognizer on one line.
import BanglaSource.Proofs.Literals

/-!
# The grammar of patterns

Between its slashes a pattern holds escapes, classes in square brackets and other
characters, all on one line. The scanner keeps one bit, whether a class is open,
and stops at the first slash outside. It finds such a slash exactly if the text
starts with something that the grammar allows in front of one. As it runs one way
only, a text starts with at most one pattern.
-/
namespace BanglaSource.Literal

/-! ## The grammar -/

/-- What may stand between the brackets of a class. -/
inductive ClassBody : Text → Prop
  | nil : ClassBody []
  | escape (c : Char) {s : Text} : ClassBody s → ClassBody ('\\' :: c :: s)
  | char {c : Char} {s : Text} : c ≠ ']' → c ≠ '\\' → ClassBody s → ClassBody (c :: s)

/-- What may stand between the slashes of a pattern, apart from line ends. -/
inductive PatternBody : Text → Prop
  | nil : PatternBody []
  | escape (c : Char) {s : Text} : PatternBody s → PatternBody ('\\' :: c :: s)
  | bracket {inside s : Text} : ClassBody inside → PatternBody s →
      PatternBody ('[' :: (inside ++ ']' :: s))
  | char {c : Char} {s : Text} : c ≠ '/' → c ≠ '\\' → c ≠ '[' → PatternBody s →
      PatternBody (c :: s)

/-- Whether a text holds no line end. -/
def OneLine (s : Text) : Prop :=
  ∀ c ∈ s, isLineEnd c = false

@[simp] theorem oneLine_nil : OneLine [] := by
  simp [OneLine]

@[simp] theorem oneLine_cons (c : Char) (s : Text) :
    OneLine (c :: s) ↔ isLineEnd c = false ∧ OneLine s :=
  List.forall_mem_cons

@[simp] theorem oneLine_append (s t : Text) : OneLine (s ++ t) ↔ OneLine s ∧ OneLine t :=
  List.forall_mem_append

/-- Whether a slash in front of `s` has a partner on its line, outside escapes and
    outside classes. -/
def Closes (s : Text) : Prop :=
  ∃ body rest, s = body ++ '/' :: rest ∧ PatternBody body ∧ OneLine body

/-! ## What the scanner finds is in the grammar -/

/-- What may stand in front of the closing slash, from a place where a class is open
    or not. -/
def ClosingBody (inClass : Bool) (s : Text) : Prop :=
  if inClass then ∃ inside body, s = inside ++ ']' :: body ∧ ClassBody inside ∧ PatternBody body
  else PatternBody s

theorem ClosingBody.escape {inClass : Bool} {s : Text} (h : ClosingBody inClass s) (c : Char) :
    ClosingBody inClass ('\\' :: c :: s) := by
  cases inClass with
  | false => exact PatternBody.escape c h
  | true =>
    obtain ⟨inside, body, rfl, hinside, hbody⟩ := h
    exact ⟨'\\' :: c :: inside, body, rfl, hinside.escape c, hbody⟩

theorem ClosingBody.char {inClass : Bool} {c : Char} {s : Text}
    (h : ClosingBody (classAfter inClass c) s) (hescape : c ≠ '\\')
    (hslash : c = '/' → inClass = true) : ClosingBody inClass (c :: s) := by
  cases inClass with
  | false =>
    have hne : c ≠ '/' := fun heq => Bool.false_ne_true (hslash heq)
    by_cases hopen : c = '['
    · subst hopen
      obtain ⟨inside, body, rfl, hinside, hbody⟩ := h
      exact PatternBody.bracket hinside hbody
    · have hafter : classAfter false c = false := by simp [classAfter, hopen]
      rw [hafter] at h
      exact PatternBody.char hne hescape hopen h
  | true =>
    by_cases hclose : c = ']'
    · subst hclose
      exact ⟨[], s, rfl, .nil, h⟩
    · have hafter : classAfter true c = true := by simp [classAfter, hclose]
      rw [hafter] at h
      obtain ⟨inside, body, rfl, hinside, hbody⟩ := h
      exact ⟨c :: inside, body, rfl, hinside.char hclose hescape, hbody⟩

/-- A scanner that stops has passed what the grammar allows, and then a slash. -/
theorem closeBody_sound {inClass : Bool} {s inside rest : Text}
    (h : closeBody inClass s = some (inside, rest)) :
    ∃ body, inside = body ++ ['/'] ∧ ClosingBody inClass body ∧ OneLine body := by
  fun_induction closeBody inClass s generalizing inside rest with
  | case1 => cases h
  | case2 => cases h
  | case3 inClass c s hend ih =>
    obtain ⟨⟨inside₀, rest₀⟩, hclose, hcons⟩ := Option.map_eq_some_iff.1 h
    cases hcons
    obtain ⟨body, rfl, hbody, hline⟩ := ih hclose
    refine ⟨'\\' :: c :: body, rfl, hbody.escape c, ?_⟩
    simpa [hline, hend] using show isLineEnd '\\' = false by decide
  | case4 => cases h
  | case5 inClass c s _ _ hslash =>
    cases h
    simp only [Bool.and_eq_true, decide_eq_true_eq, Bool.not_eq_true'] at hslash
    obtain ⟨rfl, rfl⟩ := hslash
    exact ⟨[], rfl, PatternBody.nil, oneLine_nil⟩
  | case6 inClass c s hescape hend hslash ih =>
    obtain ⟨⟨inside₀, rest₀⟩, hclose, hcons⟩ := Option.map_eq_some_iff.1 h
    cases hcons
    obtain ⟨body, rfl, hbody, hline⟩ := ih hclose
    have hbackslash : c ≠ '\\' := by
      rintro rfl
      cases s with
      | nil => simp [closeBody] at hclose
      | cons d s => exact hescape d s rfl rfl
    refine ⟨c :: body, rfl, hbody.char hbackslash ?_, by simpa [hline] using hend⟩
    rintro rfl
    simpa using hslash

/-! ## What is in the grammar is found by the scanner -/

theorem closeBody_escape {c : Char} (inClass : Bool) (s : Text) (h : isLineEnd c = false) :
    closeBody inClass ('\\' :: c :: s) =
      (closeBody inClass s).map fun (inside, rest) => ('\\' :: c :: inside, rest) := by
  simp [closeBody, h]

theorem ClassBody.closeBody_append {inside : Text} (h : ClassBody inside) (hline : OneLine inside)
    (s : Text) : closeBody true (inside ++ ']' :: s) =
      (closeBody false s).map fun (body, rest) => (inside ++ ']' :: body, rest) := by
  induction h with
  | nil =>
    rw [List.nil_append, closeBody_cons true s (by decide)]
    rfl
  | escape c _ ih =>
    simp only [oneLine_cons] at hline
    rw [List.cons_append, List.cons_append, closeBody_escape true _ hline.2.1, ih hline.2.2,
      Option.map_map]
    rfl
  | char hclose hescape _ ih =>
    rename_i c inside _
    rw [oneLine_cons] at hline
    have hafter : classAfter true c = true := by simp [classAfter, hclose]
    rw [List.cons_append, closeBody_cons true _ hescape, hafter, ih hline.2, Option.map_map]
    simp [hline.1, Function.comp_def]

/-- A scanner passes what the grammar allows and stops at the slash behind it. -/
theorem PatternBody.closeBody_append {body : Text} (h : PatternBody body) (hline : OneLine body)
    (rest : Text) : closeBody false (body ++ '/' :: rest) = some (body ++ ['/'], rest) := by
  induction h with
  | nil =>
    rw [List.nil_append, closeBody_cons false rest (by decide)]
    rfl
  | escape c _ ih =>
    simp only [oneLine_cons] at hline
    rw [List.cons_append, List.cons_append, closeBody_escape false _ hline.2.1, ih hline.2.2]
    rfl
  | bracket hinside _ ih =>
    simp only [oneLine_cons, oneLine_append] at hline
    obtain ⟨-, hclass, -, hbody⟩ := hline
    rw [List.cons_append, List.append_assoc, List.cons_append, closeBody_cons false _ (by decide)]
    have hrest := hinside.closeBody_append hclass
    simp only [show classAfter false '[' = true from rfl, hrest, ih hbody]
    simp [show isLineEnd '[' = false by decide]
  | char hslash hescape hopen _ ih =>
    rename_i c body _
    rw [oneLine_cons] at hline
    have hafter : classAfter false c = false := by simp [classAfter, hopen]
    rw [List.cons_append, closeBody_cons false _ hescape, hafter, ih hline.2]
    simp [hline.1, hslash]

/-! ## Patterns -/

/-- The scanner finds the end of a pattern exactly if the slash in front has a
    partner on its line. -/
theorem isSome_closePattern_iff (s : Text) : (closePattern s).isSome = true ↔ Closes s := by
  rw [closePattern, Option.isSome_map, Option.isSome_iff_exists]
  constructor
  · rintro ⟨⟨inside, rest⟩, hclose⟩
    obtain ⟨body, rfl, hbody, hline⟩ := closeBody_sound hclose
    refine ⟨body, rest, ?_, hbody, hline⟩
    simpa using (closeBody_append hclose).symm
  · rintro ⟨body, rest, rfl, hbody, hline⟩
    exact ⟨_, hbody.closeBody_append hline rest⟩

/-- What the scanner takes for a pattern is a body, the closing slash and all flags
    that follow. -/
theorem closePattern_sound {s inside rest : Text} (h : closePattern s = some (inside, rest)) :
    ∃ body flags, inside = body ++ '/' :: flags ∧ PatternBody body ∧ OneLine body ∧
      (∀ c ∈ flags, isFlag c = true) ∧ rest.Avoids isFlag := by
  have havoids := closePattern_avoids h
  simp only [closePattern, Option.map_eq_some_iff, Prod.exists, Prod.mk.injEq] at h
  obtain ⟨closed, after, hclose, rfl, rfl⟩ := h
  obtain ⟨body, rfl, hbody, hline⟩ := closeBody_sound hclose
  refine ⟨body, after.takeWhile isFlag, by simp, hbody, hline, ?_, havoids⟩
  intro c hc
  exact Lexer.mem_takeWhile hc

/-! ## Delimited patterns -/

/-- A pattern without its flags: a body between slashes, all on one line. -/
def Delimited (p : Text) : Prop :=
  ∃ body, p = '/' :: (body ++ ['/']) ∧ PatternBody body ∧ OneLine p

/-- The letters that may follow a pattern. -/
def flagLetters : Text := ['d', 'g', 'i', 'm', 's', 'u', 'v', 'y']

theorem isFlag_iff (c : Char) : isFlag c = true ↔ c ∈ flagLetters := by
  simp [isFlag, flagLetters]

/-- A flag takes one byte. -/
theorem byteLength_of_flags {flags : Text} (h : ∀ c ∈ flags, c ∈ flagLetters) :
    Text.byteLength flags = flags.length := by
  have hsize : flagLetters.all (·.utf8Size == 1) = true := by decide
  induction flags with
  | nil => rfl
  | cons c flags ih =>
    rw [List.forall_mem_cons] at h
    have hone : c.utf8Size = 1 := beq_iff_eq.1 (List.all_eq_true.1 hsize c h.1)
    rw [Text.byteLength, ih h.2, hone, List.length_cons, Nat.add_comm]

theorem delimited_iff {p : Text} :
    Delimited p ↔ ∃ body, p = '/' :: (body ++ ['/']) ∧ PatternBody body ∧ OneLine body := by
  have hslash : isLineEnd '/' = false := by decide
  refine exists_congr fun body => and_congr_right fun heq => and_congr_right fun _ => ?_
  simp [heq, hslash]

/-- A scanner passes what is delimited, and stops behind it. -/
theorem Delimited.closeBody_eq {p s rest : Text} (h : Delimited p) (hs : '/' :: s = p ++ rest) :
    ∃ closed, p = '/' :: closed ∧ closeBody false s = some (closed, rest) := by
  obtain ⟨body, rfl, hbody, hline⟩ := delimited_iff.1 h
  obtain rfl : s = body ++ '/' :: rest := by simpa using hs
  exact ⟨_, rfl, hbody.closeBody_append hline rest⟩

/-- At most one delimited pattern starts at a place. -/
theorem Delimited.unique {p q s : Text} (hp : Delimited p) (hq : Delimited q)
    (hps : p <+: '/' :: s) (hqs : q <+: '/' :: s) : p = q := by
  obtain ⟨rest, hrest⟩ := hps
  obtain ⟨rest', hrest'⟩ := hqs
  obtain ⟨closed, rfl, hclosed⟩ := hp.closeBody_eq hrest.symm
  obtain ⟨closed', rfl, hclosed'⟩ := hq.closeBody_eq hrest'.symm
  cases hclosed.symm.trans hclosed'
  rfl

/-- What the scanner takes is a delimited pattern and all the flags behind it. -/
theorem closePattern_eq_some_iff {s inside rest : Text} :
    closePattern s = some (inside, rest) ↔
      ∃ p flags, Delimited p ∧ '/' :: s = p ++ (flags ++ rest) ∧ '/' :: inside = p ++ flags ∧
        (∀ c ∈ flags, c ∈ flagLetters) ∧ ∀ c ∈ rest.head?, c ∉ flagLetters := by
  constructor
  · intro hclose
    obtain ⟨body, flags, rfl, hbody, hline, hflags, havoids⟩ := closePattern_sound hclose
    refine ⟨'/' :: (body ++ ['/']), flags, delimited_iff.2 ⟨body, rfl, hbody, hline⟩, ?_, by simp,
      fun c hc => (isFlag_iff c).1 (hflags c hc), fun c hc hflag => ?_⟩
    · simp [← closePattern_append hclose]
    · exact Bool.false_ne_true ((havoids c hc).symm.trans ((isFlag_iff c).2 hflag))
  · rintro ⟨p, flags, hp, hs, hinside, hflags, hrest⟩
    obtain ⟨closed, rfl, hclosed⟩ := hp.closeBody_eq hs
    obtain rfl : inside = closed ++ flags := by simpa using hinside
    have hall : ∀ c ∈ flags, isFlag c = true := fun c hc => (isFlag_iff c).2 (hflags c hc)
    have havoids : rest.Avoids isFlag := fun c hc =>
      Bool.eq_false_iff.2 fun hflag => hrest c hc ((isFlag_iff c).1 hflag)
    simp only [closePattern, hclosed, Option.map_some,
      Text.takeWhile_append_of_avoids hall havoids, Text.dropWhile_append_of_avoids hall havoids]

/-- The scanner that stands behind a slash finds an end exactly if a delimited pattern
    starts at the slash. There is at most one such pattern. The end lies behind it and
    behind the longest run of flags that follows, so as many bytes from the slash as the
    pattern has, and one more for each flag. -/
theorem closePattern_accepts_grammar (s : Text) :
    ((closePattern s).isSome = true ↔ ∃ p, Delimited p ∧ p <+: '/' :: s) ∧
    (∀ p q, Delimited p → Delimited q → p <+: '/' :: s → q <+: '/' :: s → p = q) ∧
    ∀ inside rest, closePattern s = some (inside, rest) ↔
      ∃ p flags, Delimited p ∧ '/' :: s = p ++ (flags ++ rest) ∧ '/' :: inside = p ++ flags ∧
        (∀ c ∈ flags, c ∈ flagLetters) ∧ (∀ c ∈ rest.head?, c ∉ flagLetters) ∧
        Text.byteLength ('/' :: inside) = Text.byteLength p + flags.length := by
  refine ⟨?_, fun p q => Delimited.unique, fun inside rest => ?_⟩
  · rw [isSome_closePattern_iff]
    constructor
    · rintro ⟨body, rest, rfl, hbody, hline⟩
      exact ⟨'/' :: (body ++ ['/']), delimited_iff.2 ⟨body, rfl, hbody, hline⟩, rest, by simp⟩
    · rintro ⟨p, hp, rest, hrest⟩
      obtain ⟨body, rfl, hbody, hline⟩ := delimited_iff.1 hp
      exact ⟨body, rest, by simpa using hrest.symm, hbody, hline⟩
  · rw [closePattern_eq_some_iff]
    refine exists₂_congr fun p flags => and_congr_right fun _ => and_congr_right fun _ =>
      and_congr_right fun hinside => and_congr_right fun hflags => (and_iff_left ?_).symm
    rw [hinside, Text.byteLength_append, byteLength_of_flags hflags]

/-- A pattern with a slash and an escaped bracket in a class, an escaped slash, and two
    flags, in front of a division. -/
def slashInClass : Text := "[/\\]ক]\\//gi/x"

/-- The pattern ends at its second free slash, 12 bytes from the first, and its two
    flags end before the division. -/
theorem closePattern_accepts_grammar_slashInClass :
    let p : Text := "/[/\\]ক]\\//"
    Delimited p ∧ closePattern slashInClass = some ("[/\\]ক]\\//gi".toList, "/x".toList) ∧
    (∀ q, Delimited q → q <+: '/' :: slashInClass → q = p) ∧
    Text.byteLength ('/' :: "[/\\]ক]\\//gi".toList) = Text.byteLength p + 2 := by
  intro p
  have hclass : ClassBody ['/', '\\', ']', 'ক'] :=
    .char (by decide) (by decide) (.escape ']' (.char (by decide) (by decide) .nil))
  have hp : Delimited p :=
    delimited_iff.2 ⟨_, rfl, .bracket hclass (.escape '/' .nil), by simp [isLineEnd]⟩
  obtain ⟨-, hunique, hends⟩ := closePattern_accepts_grammar slashInClass
  have hend := (hends "[/\\]ক]\\//gi".toList "/x".toList).2
    ⟨p, ['g', 'i'], hp, rfl, rfl, by simp [flagLetters], by simp [flagLetters], rfl⟩
  exact ⟨hp, hend, fun q hq hqs => hunique q p hq hp hqs ⟨"gi/x".toList, rfl⟩, rfl⟩

end BanglaSource.Literal
