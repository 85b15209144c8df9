-- SUMMARY: Lines found by number are the texts between line feeds, and the line of an offset counts the line feeds before it.
import BanglaSource.SourceFile

/-!
# Lines of a source file

The index of a source file holds one byte offset behind each line feed. Offsets
behind a prefix of the text are not smaller than the length of the prefix, so the
index splits where the text does. The slice between two neighbouring starts is then
the text between two line feeds, and counting starts up to an offset counts the
line feeds before it.
-/
namespace BanglaSource

/-- Whether byte `offset` of `s` belongs to the character behind `before`. -/
def Text.CharAt (s before : Text) (offset : Nat) : Prop :=
  ∃ c, before ++ [c] <+: s ∧ byteLength before ≤ offset ∧ offset < byteLength before + c.utf8Size

namespace Text

/-! ## Lines and slices of a text -/

/-- Whether `line` is all that stands between two line feeds, or between one and an end
    of the text. -/
structure IsLine (before line after : Text) : Prop where
  starts : before = [] ∨ ∃ s, before = s ++ ['\n']
  not_mem : '\n' ∉ line
  stops : after = [] ∨ ∃ s, after = '\n' :: s

theorem exists_first_line (s : Text) :
    ∃ line rest, s = line ++ rest ∧ '\n' ∉ line ∧ (rest = [] ∨ ∃ t, rest = '\n' :: t) := by
  induction s with
  | nil => exact ⟨[], [], rfl, by simp, .inl rfl⟩
  | cons c s ih =>
    by_cases hfeed : c = '\n'
    · exact ⟨[], c :: s, rfl, by simp, .inr ⟨s, by rw [hfeed]⟩⟩
    · obtain ⟨line, rest, rfl, hline, hrest⟩ := ih
      exact ⟨c :: line, rest, rfl, by simp [Ne.symm hfeed, hline], hrest⟩

/-- Every place of a text lies on a line. -/
theorem exists_isLine (s t : Text) :
    ∃ before left right after, s = before ++ left ∧ t = right ++ after ∧
      IsLine before (left ++ right) after := by
  obtain ⟨left, before, hs, hleft, hbefore⟩ := exists_first_line s.reverse
  obtain ⟨right, after, ht, hright, hafter⟩ := exists_first_line t
  have hs : s = before.reverse ++ left.reverse := by
    rw [← List.reverse_append, ← hs, List.reverse_reverse]
  refine ⟨before.reverse, left.reverse, right, after, hs, ht, ?_, by simp [hleft, hright], hafter⟩
  rcases hbefore with rfl | ⟨u, rfl⟩
  · exact .inl rfl
  · exact .inr ⟨u.reverse, List.reverse_cons⟩

theorem IsLine.lineFeeds_left {before left right after : Text}
    (h : IsLine before (left ++ right) after) : lineFeeds (before ++ left) = lineFeeds before := by
  have hleft : lineFeeds left = 0 :=
    List.count_eq_zero.2 fun hmem => h.not_mem (List.mem_append_left right hmem)
  rw [lineFeeds_append, hleft, Nat.add_zero]

theorem dropBytes_byteLength_append (s t : Text) : dropBytes (byteLength s) (s ++ t) = t := by
  induction s with
  | nil => cases t <;> rfl
  | cons c s ih =>
    have hpos := c.utf8Size_pos
    rw [List.cons_append, byteLength, dropBytes, if_neg (by omega), Nat.add_sub_cancel_left, ih]

theorem takeBytes_byteLength_append (s t : Text) : takeBytes (byteLength s) (s ++ t) = s := by
  induction s with
  | nil => cases t <;> rfl
  | cons c s ih =>
    have hpos := c.utf8Size_pos
    rw [List.cons_append, byteLength, takeBytes, if_neg (by omega), Nat.add_sub_cancel_left, ih]

end Text

namespace SourceFile

/-! ## Starts of lines -/

theorem startsAfter_append (offset : Nat) (s t : Text) :
    startsAfter offset (s ++ t) =
      startsAfter offset s ++ startsAfter (offset + Text.byteLength s) t := by
  induction s generalizing offset with
  | nil => rfl
  | cons c s ih =>
    simp only [List.cons_append, startsAfter, ih, Text.byteLength, Nat.add_assoc]
    split <;> rfl

theorem length_startsAfter (offset : Nat) (s : Text) :
    (startsAfter offset s).length = Text.lineFeeds s := by
  induction s generalizing offset with
  | nil => rfl
  | cons c s ih =>
    by_cases hfeed : c = '\n' <;> simp [startsAfter, Text.lineFeeds, hfeed, ih]

theorem startsAfter_bounds {offset start : Nat} {s : Text} (h : start ∈ startsAfter offset s) :
    offset ≤ start ∧ start ≤ offset + Text.byteLength s := by
  induction s generalizing offset with
  | nil => simp [startsAfter] at h
  | cons c s ih =>
    have htail : start ∈ startsAfter (offset + c.utf8Size) s →
        offset ≤ start ∧ start ≤ offset + Text.byteLength (c :: s) := by
      intro hmem
      obtain ⟨hlow, hhigh⟩ := ih hmem
      rw [Text.byteLength]
      omega
    simp only [startsAfter] at h
    split at h
    · rcases List.mem_cons.1 h with rfl | hmem
      · rw [Text.byteLength]
        omega
      · exact htail hmem
    · exact htail h

/-- The starts behind a character lie behind all its bytes. -/
theorem le_of_mem_startsAfter_cons {offset start : Nat} {c : Char} {s : Text}
    (h : start ∈ startsAfter offset (c :: s)) : offset + c.utf8Size ≤ start := by
  simp only [startsAfter] at h
  split at h
  · rcases List.mem_cons.1 h with rfl | hmem
    · exact Nat.le_refl _
    · exact (startsAfter_bounds hmem).1
  · exact (startsAfter_bounds h).1

/-! ## Lines by number -/

/-- A line starts where the text before it ends. -/
theorem getElem?_lineStarts (name : Text) {before : Text} (after : Text)
    (h : before = [] ∨ ∃ s, before = s ++ ['\n']) :
    (lineStarts ⟨name, before ++ after⟩)[Text.lineFeeds before]? =
      some (Text.byteLength before) := by
  rcases h with rfl | ⟨s, rfl⟩
  · rfl
  · have hfeeds : Text.lineFeeds (s ++ ['\n']) = (startsAfter 0 s).length + 1 := by
      rw [Text.lineFeeds_append, length_startsAfter]
      rfl
    have hstart : startsAfter (Text.byteLength s) ['\n'] = [Text.byteLength (s ++ ['\n'])] := by
      rw [Text.byteLength_append]
      rfl
    rw [hfeeds, lineStarts, List.getElem?_cons_succ, startsAfter_append, startsAfter_append,
      Nat.zero_add, hstart, List.append_assoc, List.getElem?_append_right (Nat.le_refl _),
      Nat.sub_self]
    rfl

/-- The next start is the first one of what follows. -/
theorem getElem?_lineStarts_succ (name before after : Text) :
    (lineStarts ⟨name, before ++ after⟩)[Text.lineFeeds before + 1]? =
      (startsAfter (Text.byteLength before) after)[0]? := by
  rw [lineStarts, List.getElem?_cons_succ, startsAfter_append, Nat.zero_add,
    ← length_startsAfter 0 before, List.getElem?_append_right (Nat.le_refl _), Nat.sub_self]

/-- The start behind a line is the byte behind its line feed. -/
theorem getElem?_lineStarts_behind {before line after : Text} (h : Text.IsLine before line after)
    (name : Text) :
    (lineStarts ⟨name, before ++ (line ++ after)⟩)[Text.lineFeeds before + 1]? =
      if after = [] then none
      else some (Text.byteLength before + Text.byteLength line + 1) := by
  have hnone : startsAfter (Text.byteLength before) line = [] := by
    rw [← List.length_eq_zero_iff, length_startsAfter]
    exact List.count_eq_zero.2 h.not_mem
  rw [getElem?_lineStarts_succ, startsAfter_append, hnone, List.nil_append]
  rcases h.stops with rfl | ⟨s, rfl⟩
  · rfl
  · rfl

/-- The byte at which line `number` starts, and the one behind its last character. -/
def bounds? (f : SourceFile) (number : Nat) : Option (Nat × Nat) :=
  match number with
  | 0 => none
  | index + 1 =>
    f.lineStarts[index]?.map fun start =>
      (start, match f.lineStarts[index + 1]? with
        | some next => next - 1
        | none => Text.byteLength f.text)

theorem line?_eq_slice (f : SourceFile) (number : Nat) :
    f.line? number = (f.bounds? number).map fun b =>
      stripReturn (Text.takeBytes (b.2 - b.1) (Text.dropBytes b.1 f.text)) := by
  cases number with
  | zero => rfl
  | succ index =>
    rw [line?, bounds?, Option.map_map]
    rfl

/-- A line is cut out where the texts before and behind it end and start. -/
theorem bounds?_of_isLine {before line after : Text} (h : Text.IsLine before line after)
    (name : Text) :
    bounds? ⟨name, before ++ (line ++ after)⟩ (Text.lineFeeds before + 1) =
      some (Text.byteLength before, Text.byteLength before + Text.byteLength line) := by
  rw [bounds?, getElem?_lineStarts name (line ++ after) h.starts, Option.map_some,
    getElem?_lineStarts_behind h]
  by_cases hafter : after = []
  · simp [hafter]
  · simp [hafter]

theorem line?_of_isLine {before line after : Text} (h : Text.IsLine before line after)
    (name : Text) :
    line? ⟨name, before ++ (line ++ after)⟩ (1 + Text.lineFeeds before) =
      some (stripReturn line) := by
  rw [Nat.add_comm, line?_eq_slice, bounds?_of_isLine h, Option.map_some, Nat.add_sub_cancel_left,
    Text.dropBytes_byteLength_append, Text.takeBytes_byteLength_append]

/-- A character that is no carriage return stays where it is. -/
theorem getElem?_stripReturn {s : Text} {n : Nat} {c : Char} (h : s[n]? = some c)
    (hc : c ≠ '\r') : (stripReturn s)[n]? = some c := by
  rw [stripReturn]
  split
  · next hlast =>
    have hne : n ≠ s.length - 1 := by
      rintro rfl
      rw [← List.getLast?_eq_getElem?, hlast] at h
      exact hc (Option.some.inj h).symm
    have hlt : n < s.length := (List.getElem?_eq_some_iff.1 h).1
    rw [List.getElem?_dropLast, if_pos (by omega), h]
  · exact h

/-! ## Lines of offsets -/

/-- Starts up to an offset are those of the text before it, if the text behind has
    none there. -/
theorem lineOfOffset_append (name before after : Text) {offset : Nat}
    (hlow : Text.byteLength before ≤ offset)
    (hhigh : ∀ start ∈ startsAfter (Text.byteLength before) after, offset < start) :
    lineOfOffset ⟨name, before ++ after⟩ offset = 1 + Text.lineFeeds before := by
  have hbefore : (startsAfter 0 before).countP (· ≤ offset) = Text.lineFeeds before := by
    rw [← length_startsAfter 0 before, List.countP_eq_length]
    intro start hstart
    have hbound := (startsAfter_bounds hstart).2
    simp only [decide_eq_true_eq]
    omega
  have hafter : (startsAfter (Text.byteLength before) after).countP (· ≤ offset) = 0 := by
    rw [List.countP_eq_zero]
    intro start hstart
    simpa using hhigh start hstart
  simp [lineOfOffset, lineStarts, startsAfter_append, hbefore, hafter, Nat.add_comm]

/-- All bytes of a character lie on the same line. -/
theorem lineOfOffset_of_charAt {text before : Text} {offset : Nat} (h : text.CharAt before offset)
    (name : Text) : lineOfOffset ⟨name, text⟩ offset = 1 + Text.lineFeeds before := by
  obtain ⟨c, ⟨after, rfl⟩, hlow, hhigh⟩ := h
  rw [List.append_assoc, List.singleton_append]
  refine lineOfOffset_append name before (c :: after) hlow fun start hstart => ?_
  exact Nat.lt_of_lt_of_le hhigh (le_of_mem_startsAfter_cons hstart)

/-- Offsets past the end lie on the last line. -/
theorem lineOfOffset_of_byteLength_le {text : Text} {offset : Nat}
    (h : Text.byteLength text ≤ offset) (name : Text) :
    lineOfOffset ⟨name, text⟩ offset = 1 + Text.lineFeeds text := by
  simpa using lineOfOffset_append name text [] h (by simp [startsAfter])

end SourceFile
end BanglaSource
