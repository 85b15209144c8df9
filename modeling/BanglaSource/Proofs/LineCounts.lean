-- SUMMARY: The line counts of a source are those of its lines, each told by the tokens that its characters belong to.
import BanglaSource.LineStats
import BanglaSource.Proofs.TokenSpans

/-!
# Counting lines

Lines are counted by number: a token marks the lines from the one on which it starts
to the one on which it ends, without the line behind a line feed at its end. Here the
lines are written out as what they hold, characters with their tokens. A line holds a
character of a token exactly if the token marks its number: line numbers grow by one
along a token, so that none of them is passed over.
-/
namespace BanglaSource

/-! ## Line feeds along a text -/

/-- Along a text every smaller number of line feeds is met. -/
theorem Text.exists_lineFeeds_eq {s : Text} {n : Nat} (h : n ≤ lineFeeds s) :
    ∃ left right, s = left ++ right ∧ lineFeeds left = n := by
  induction s using List.reverseRecOn with
  | nil => exact ⟨[], [], rfl, (Nat.le_zero.1 h).symm⟩
  | append_singleton s c ih =>
    by_cases hshort : n ≤ lineFeeds s
    · obtain ⟨left, right, rfl, hleft⟩ := ih hshort
      exact ⟨left, right ++ [c], List.append_assoc .., hleft⟩
    · have hone : lineFeeds (s ++ [c]) ≤ lineFeeds s + 1 := by
        rw [lineFeeds_concat]
        split <;> omega
      exact ⟨s ++ [c], [], (List.append_nil _).symm, by omega⟩

theorem Text.length_lines (s : Text) : (lines s).length = lineFeeds s + 1 := by
  induction s with
  | nil => rfl
  | cons c s ih =>
    rw [lines] at ih ⊢
    rw [List.splitOnP_cons_eq_if_modifyHead]
    by_cases hfeed : c = '\n' <;> simp [lineFeeds, hfeed, ih]

namespace LineStats

/-! ## Lines written out -/

/-- The characters of tokens, each with the token that it belongs to. -/
def ownedChars (tokens : List Token) : List (Char × Token) :=
  tokens.flatMap fun t => t.text.map fun c => (c, t)

/-- The lines of characters with their tokens. A line feed stands at the end of its
    line. What stands behind the last one, or nothing, is a line, too. -/
def rows : List (Char × Token) → List (List (Char × Token))
  | [] => [[]]
  | x :: xs => if x.1 = '\n' then [x] :: rows xs else (rows xs).modifyHead (x :: ·)

/-- Whether a line holds a character of a token that is neither blank nor a comment. -/
def holdsCode (row : List (Char × Token)) : Bool :=
  row.any fun x => !x.2.isBlank && x.2.kind != .comment

/-- Whether a line holds a character of a comment. -/
def holdsComment (row : List (Char × Token)) : Bool :=
  row.any fun x => x.2.kind == .comment

/-- Whether all characters of a line belong to blank tokens. -/
def holdsBlanks (row : List (Char × Token)) : Bool :=
  row.all fun x => x.2.isBlank

@[simp] theorem map_fst_ownedChars (tokens : List Token) :
    (ownedChars tokens).map Prod.fst = tokens.flatMap (·.text) := by
  simp [ownedChars, List.map_flatMap, Function.comp_def]

theorem length_rows (xs : List (Char × Token)) :
    (rows xs).length = Text.lineFeeds (xs.map Prod.fst) + 1 := by
  induction xs with
  | nil => rfl
  | cons x xs ih => by_cases hfeed : x.1 = '\n' <;> simp [rows, Text.lineFeeds, hfeed, ih]

/-- There is always a first line, which a character in front joins. -/
theorem exists_rows_eq_cons (xs : List (Char × Token)) : ∃ row rest, rows xs = row :: rest :=
  List.exists_cons_of_length_pos (by rw [length_rows]; omega)

theorem flatten_rows (xs : List (Char × Token)) : (rows xs).flatten = xs := by
  induction xs with
  | nil => rfl
  | cons x xs ih =>
    rw [rows]
    split
    · rw [List.flatten_cons, ih, List.singleton_append]
    · obtain ⟨row, rest, hrows⟩ := exists_rows_eq_cons xs
      rw [hrows] at ih ⊢
      rw [List.modifyHead_cons, List.flatten_cons, List.cons_append, ← List.flatten_cons, ih]

/-- Whether `x` stands in `xs` somewhere behind `n` line feeds. -/
def StandsBehind (xs : List (Char × Token)) (x : Char × Token) (n : Nat) : Prop :=
  ∃ before after, xs = before ++ x :: after ∧ Text.lineFeeds (before.map Prod.fst) = n

theorem standsBehind_cons_iff {x y : Char × Token} {xs : List (Char × Token)} {n : Nat} :
    StandsBehind (y :: xs) x n ↔
      (x = y ∧ n = 0) ∨
        if y.1 = '\n' then ∃ m, n = m + 1 ∧ StandsBehind xs x m else StandsBehind xs x n := by
  have hcount : ∀ before : List (Char × Token),
      Text.lineFeeds ((y :: before).map Prod.fst) =
        Text.lineFeeds (before.map Prod.fst) + if y.1 = '\n' then 1 else 0 := by
    intro before
    simp [Text.lineFeeds, List.count_cons]
  constructor
  · rintro ⟨_ | ⟨z, before⟩, after, hplace, rfl⟩
    · cases hplace
      exact .inl ⟨rfl, rfl⟩
    · obtain ⟨rfl, rfl⟩ := List.cons.inj hplace
      rw [hcount]
      split
      · exact .inr ⟨_, rfl, before, after, rfl, rfl⟩
      · exact .inr ⟨before, after, rfl, rfl⟩
  · rintro (⟨rfl, rfl⟩ | hlater)
    · exact ⟨[], xs, rfl, rfl⟩
    · split at hlater
      · next hfeed =>
        obtain ⟨m, rfl, before, after, rfl, rfl⟩ := hlater
        exact ⟨y :: before, after, rfl, by rw [hcount, if_pos hfeed]⟩
      · next hfeed =>
        obtain ⟨before, after, rfl, rfl⟩ := hlater
        exact ⟨y :: before, after, rfl, by rw [hcount, if_neg hfeed, Nat.add_zero]⟩

/-- The lines hold the characters that stand behind as many line feeds as their number
    says, counted from zero. -/
theorem exists_mem_rows_iff {xs : List (Char × Token)} {n : Nat} {x : Char × Token} :
    (∃ row, (rows xs)[n]? = some row ∧ x ∈ row) ↔ StandsBehind xs x n := by
  induction xs generalizing n with
  | nil => cases n <;> simp [rows, StandsBehind]
  | cons y xs ih =>
    rw [standsBehind_cons_iff, rows]
    by_cases hfeed : y.1 = '\n'
    · cases n <;> simp [hfeed, ih]
    · obtain ⟨row, rest, hrows⟩ := exists_rows_eq_cons xs
      simp only [hrows] at ih
      cases n <;> simp [hfeed, hrows, ← ih]

/-- A character with its token stands where the token does, behind the characters of
    the token before it. -/
theorem standsBehind_ownedChars_iff {ts : List Token} {c : Char} {t : Token} {n : Nat} :
    StandsBehind (ownedChars ts) (c, t) n ↔
      ∃ before after inside rest, ts = before ++ t :: after ∧ t.text = inside ++ c :: rest ∧
        Text.lineFeeds (before.flatMap (·.text) ++ inside) = n := by
  have hchars : ∀ (before : List Token) (inside : Text),
      (ownedChars before ++ inside.map fun c => (c, t)).map Prod.fst =
        before.flatMap (·.text) ++ inside := by
    intro before inside
    simp [Function.comp_def]
  constructor
  · rintro ⟨front, back, hplace, rfl⟩
    rw [ownedChars] at hplace
    obtain ⟨before, u, after, left, right, rfl, hpiece, rfl, -⟩ := exists_piece_of_flatMap hplace
    obtain ⟨inside, tail, htext, rfl, htail⟩ := List.map_eq_append_iff.1 hpiece
    obtain ⟨c, rest, rfl, howner, -⟩ := List.map_eq_cons_iff.1 htail
    cases howner
    exact ⟨before, after, inside, rest, rfl, htext, congrArg _ (hchars before inside).symm⟩
  · rintro ⟨before, after, inside, rest, rfl, htext, rfl⟩
    refine ⟨ownedChars before ++ inside.map fun c => (c, t),
      (rest.map fun c => (c, t)) ++ ownedChars after, ?_, congrArg _ (hchars before inside)⟩
    simp [ownedChars, htext]

/-! ## Lines that a token marks -/

section
variable {source inside : Text} {before after : List Token} {t : Token} {last : Char}

/-- The last line that a token marks is the one of its last character. -/
theorem lineRange_of_tokenize (h : tokenize source = before ++ t :: after)
    (hlast : t.text = inside ++ [last]) :
    lineRange t = (1 + Text.lineFeeds (before.flatMap (·.text)),
      1 + Text.lineFeeds (before.flatMap (·.text) ++ inside)) := by
  have hstart := startLine_of_tokenize h
  have hend := endLine_of_tokenize h hlast
  have hgrow : Text.lineFeeds (before.flatMap (·.text)) ≤
      Text.lineFeeds (before.flatMap (·.text) ++ inside) := by
    rw [Text.lineFeeds_append]
    omega
  have hfinal : t.text.getLast? = some last := by rw [hlast, List.getLast?_concat]
  simp only [lineRange, Span.lines, hfinal, Option.some.injEq]
  by_cases hfeed : last = '\n'
  · rw [if_pos hfeed] at hend
    have hlt : t.span.startLine < max t.span.endLine t.span.startLine := by omega
    simp only [hfeed, hlt, decide_true, Bool.and_self, if_true, Prod.mk.injEq]
    omega
  · rw [if_neg hfeed] at hend
    simp only [hfeed, decide_false, Bool.false_and, Bool.false_eq_true, if_false, Prod.mk.injEq]
    omega

/-- A token marks the lines of its characters. -/
theorem mem_linesOf_of_tokenize (h : tokenize source = before ++ t :: after) {n : Nat} :
    n + 1 ∈ linesOf t ↔ ∃ inside c rest, t.text = inside ++ c :: rest ∧
      Text.lineFeeds (before.flatMap (·.text) ++ inside) = n := by
  obtain ⟨init, last, hlast⟩ := exists_last_of_tokenize h
  rw [mem_linesOf, lineRange_of_tokenize h hlast]
  simp only [Text.lineFeeds_append]
  constructor
  · rintro ⟨hlow, hhigh⟩
    obtain ⟨inside, right, rfl, hfeeds⟩ : ∃ left right, init = left ++ right ∧
        Text.lineFeeds left = n - Text.lineFeeds (before.flatMap (·.text)) :=
      Text.exists_lineFeeds_eq (by omega)
    obtain ⟨c, rest, hrest⟩ := List.exists_cons_of_ne_nil (List.concat_ne_nil last right)
    refine ⟨inside, c, rest, ?_, by omega⟩
    rw [hlast, List.append_assoc, ← hrest]
  · rintro ⟨inside, c, rest, htext, rfl⟩
    obtain rfl : inside ++ (c :: rest).dropLast = init := by
      have hinit := congrArg List.dropLast (hlast.symm.trans htext)
      rw [List.dropLast_concat, List.dropLast_append_of_ne_nil (List.cons_ne_nil c rest)] at hinit
      exact hinit.symm
    rw [Text.lineFeeds_append]
    omega

end

/-- The lines on which characters of a class of tokens stand are the ones that tokens
    of the class mark. -/
theorem any_rows_eq_contains {source : Text} {n : Nat} {row : List (Char × Token)}
    (h : (rows (ownedChars (tokenize source)))[n]? = some row) (inClass : Token → Bool) :
    (row.any fun x => inClass x.2) = (covered (tokenize source) inClass).contains (n + 1) := by
  rw [Bool.eq_iff_iff, contains_covered, List.any_eq_true]
  constructor
  · rintro ⟨⟨c, t⟩, hmem, hclass⟩
    obtain ⟨before, after, inside, rest, htokens, htext, hfeeds⟩ :=
      standsBehind_ownedChars_iff.1 (exists_mem_rows_iff.1 ⟨row, h, hmem⟩)
    exact ⟨t, by simp [htokens], hclass,
      (mem_linesOf_of_tokenize htokens).2 ⟨inside, c, rest, htext, hfeeds⟩⟩
  · rintro ⟨t, hmem, hclass, hline⟩
    obtain ⟨before, after, htokens⟩ := List.append_of_mem hmem
    obtain ⟨inside, c, rest, htext, hfeeds⟩ := (mem_linesOf_of_tokenize htokens).1 hline
    obtain ⟨row', hrow', hmem'⟩ := exists_mem_rows_iff.2
      (standsBehind_ownedChars_iff.2 ⟨before, after, inside, rest, htokens, htext, hfeeds⟩)
    obtain rfl : row = row' := Option.some.inj (h.symm.trans hrow')
    exact ⟨(c, t), hmem', hclass⟩

/-! ## Counting -/

/-- Counting the members of a list is counting their places. -/
theorem countP_range'_length {α : Type} {xs : List α} {start : Nat} {marked : Nat → Bool}
    {p : α → Bool} (h : ∀ n x, xs[n]? = some x → marked (start + n) = p x) :
    (List.range' start xs.length).countP marked = xs.countP p := by
  induction xs generalizing start with
  | nil => rfl
  | cons x xs ih =>
    have hfirst : marked start = p x := h 0 x rfl
    have hrest : ∀ n y, xs[n]? = some y → marked (start + 1 + n) = p y := by
      intro n y hy
      rw [Nat.add_assoc, Nat.add_comm 1 n]
      exact h (n + 1) y hy
    rw [List.length_cons, List.range'_succ, List.countP_cons, List.countP_cons, ih hrest, hfirst]

/-- A blank token is no comment. -/
theorem kind_ne_comment_of_isBlank {l : Lexeme} (h : l.isBlank = true) : l.kind ≠ .comment := by
  rw [Lexeme.isBlank, Bool.and_eq_true, beq_iff_eq] at h
  rw [h.1]
  exact Kind.noConfusion

/-- The lines of blanks are those that hold neither code nor a comment. -/
theorem holdsBlanks_eq (row : List (Char × Token)) :
    holdsBlanks row = (!holdsCode row && !holdsComment row) := by
  rw [Bool.eq_iff_iff]
  simp only [holdsBlanks, holdsCode, holdsComment, List.all_eq_true, Bool.and_eq_true,
    Bool.not_eq_true', List.any_eq_false, ← forall_and]
  refine forall₂_congr fun x _ => ?_
  by_cases hblank : x.2.isBlank = true
  · simp [hblank, kind_ne_comment_of_isBlank hblank]
  · simp [hblank]

/-- Every line is one of code, one of comments or one of blanks. -/
theorem length_eq_countP_add (lines : List (List (Char × Token))) :
    lines.countP holdsCode + lines.countP (fun row => !holdsCode row && holdsComment row) +
      lines.countP holdsBlanks = lines.length := by
  induction lines with
  | nil => rfl
  | cons row lines ih =>
    simp only [List.countP_cons, List.length_cons, holdsBlanks_eq row]
    cases holdsCode row <;> cases holdsComment row <;> simp <;> omega

theorem length_rows_tokenize (source : Text) :
    (rows (ownedChars (tokenize source))).length = Text.lineFeeds source + 1 := by
  rw [length_rows, map_fst_ownedChars, ← eq_flatMap_tokenize]

theorem totalLines_ofSource (source : Text) :
    (ofSource source).totalLines = (rows (ownedChars (tokenize source))).length := by
  rw [length_rows_tokenize]
  exact Text.length_lines source

/-- The lines of code are those whose numbers tokens of code mark. -/
theorem codeLines_ofSource (source : Text) :
    (ofSource source).codeLines = (rows (ownedChars (tokenize source))).countP holdsCode := by
  calc (ofSource source).codeLines
    _ = (List.range' 1 (rows (ownedChars (tokenize source))).length).countP
          (covered (tokenize source) isCode).contains := by
        rw [← totalLines_ofSource]
        rfl
    _ = _ := countP_range'_length fun n row hrow => by
        rw [Nat.add_comm, ← any_rows_eq_contains hrow isCode]
        rfl

/-- The lines of comments are those whose numbers comments mark and no token of code
    does. -/
theorem commentLines_ofSource (source : Text) :
    (ofSource source).commentLines =
      (rows (ownedChars (tokenize source))).countP fun row =>
        !holdsCode row && holdsComment row := by
  calc (ofSource source).commentLines
    _ = (List.range' 1 (rows (ownedChars (tokenize source))).length).countP fun n =>
          !(covered (tokenize source) isCode).contains n &&
            (covered (tokenize source) isComment).contains n := by
        rw [← totalLines_ofSource]
        rfl
    _ = _ := countP_range'_length fun n row hrow => by
        rw [Nat.add_comm, ← any_rows_eq_contains hrow isCode, ← any_rows_eq_contains hrow isComment]
        rfl

/-- The counts of a source, told by its lines. The lines are made of its characters,
    each with the token that it belongs to, and end with their line feeds. There is one
    more of them than line feeds. Lines of code hold a character of a token that is
    neither blank nor a comment, lines of comments a character of a comment and no code,
    and blank lines only characters of blank tokens. So the three counts add up, and
    neither subtraction is cut off at zero. In a short source all spans are in range. -/
theorem ofSource_counts_lines (source : Text) :
    let chars := ownedChars (tokenize source)
    let lines := rows chars
    let stats := ofSource source
    chars.map Prod.fst = source ∧ lines.flatten = chars ∧ lines.length = stats.totalLines ∧
    stats.totalLines = Text.lineFeeds source + 1 ∧
    stats.codeLines = lines.countP holdsCode ∧
    stats.commentLines = lines.countP (fun row => !holdsCode row && holdsComment row) ∧
    stats.blankLines = lines.countP holdsBlanks ∧
    stats.characters = source.length ∧
    stats.codeLines + stats.commentLines + stats.blankLines = stats.totalLines ∧
    stats.codeLines ≤ stats.totalLines ∧
    stats.commentLines ≤ stats.totalLines - stats.codeLines ∧
    (source.length < 2 ^ 32 - 1 → ∀ t ∈ tokenize source, t.span.InRange) := by
  intro chars lines stats
  have hchars : chars.map Prod.fst = source :=
    (map_fst_ownedChars _).trans (eq_flatMap_tokenize source).symm
  have htotal : stats.totalLines = lines.length := totalLines_ofSource source
  have hlines : lines.length = Text.lineFeeds source + 1 := length_rows_tokenize source
  have hcode : stats.codeLines = lines.countP holdsCode := codeLines_ofSource source
  have hcomment : stats.commentLines =
      lines.countP (fun row => !holdsCode row && holdsComment row) := commentLines_ofSource source
  have hblank : stats.blankLines = stats.totalLines - stats.codeLines - stats.commentLines := rfl
  have hsum := length_eq_countP_add lines
  refine ⟨hchars, flatten_rows chars, htotal.symm, htotal.trans hlines, hcode, hcomment, by omega,
    rfl, by omega, by omega, by omega, fun hshort t ht => ?_⟩
  obtain ⟨before, after, htokens⟩ := List.append_of_mem ht
  exact inRange_of_tokenize htokens hshort

/-- A comment over two lines with code behind it, a blank line, and a string that is
    never closed and ends with a line feed. -/
def commentBeforeCode : Text := "/* এক\nদুই */ ক\n \n'খ\n"

/-- The string ends its line, and opens no line of code behind it. -/
theorem ofSource_counts_lines_commentBeforeCode :
    let stats := ofSource commentBeforeCode
    stats.totalLines = 5 ∧ stats.codeLines = 2 ∧ stats.commentLines = 1 ∧ stats.blankLines = 2 ∧
    ∀ t ∈ tokenize commentBeforeCode, t.span.InRange := by
  let lines := rows (ownedChars (tokenize commentBeforeCode))
  have hcounts : Text.lineFeeds commentBeforeCode = 4 ∧ lines.countP holdsCode = 2 ∧
      lines.countP (fun row => !holdsCode row && holdsComment row) = 1 ∧
      lines.countP holdsBlanks = 2 := by
    decide +kernel
  obtain ⟨-, -, -, htotal, hcode, hcomment, hblank, -, -, -, -, hrange⟩ :=
    ofSource_counts_lines commentBeforeCode
  rw [hcounts.1] at htotal
  exact ⟨htotal, hcode.trans hcounts.2.1, hcomment.trans hcounts.2.2.1,
    hblank.trans hcounts.2.2.2, hrange (by decide)⟩

end LineStats
end BanglaSource
