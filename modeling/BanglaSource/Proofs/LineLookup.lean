-- SUMMARY: The line index: lines by number are slices between characters, and an offset lies on the line whose bytes hold it.
import BanglaSource.Proofs.LineBytes
import Mathlib.Algebra.Group.Nat.Defs
import Mathlib.Order.Monotone.Defs

/-!
# Looking up lines

The starts of lines increase strictly, so those up to an offset come first in the index
and their number is a place in it. The line of that number starts at or before the
offset, and the next one behind it. Between the two lie the bytes of the line and of its
line feed, and for the last line the end of the text.
-/
namespace BanglaSource

namespace Text

theorem bytes_append (s t : Text) : bytes (s ++ t) = bytes s ++ bytes t := by
  simp only [bytes_eq_flatMap, List.flatMap_append]

/-- The bytes between two places of a text are those of the characters between them. -/
theorem bytes_slice (before s after : Text) :
    ((bytes (before ++ (s ++ after))).drop (byteLength before)).take (byteLength s) = bytes s := by
  rw [bytes_append, bytes_append, ← length_bytes before, List.drop_left, ← length_bytes s,
    List.take_left]

theorem IsLine.lineFeeds_eq {before line after : Text} (h : IsLine before line after) :
    lineFeeds (before ++ (line ++ after)) = lineFeeds before + lineFeeds after := by
  have hline : lineFeeds line = 0 := List.count_eq_zero.2 h.not_mem
  rw [lineFeeds_append, lineFeeds_append, hline, Nat.zero_add]

end Text

namespace SourceFile

/-! ## The order of the index -/

theorem lt_of_mem_startsAfter {base start : Nat} {s : Text} (h : start ∈ startsAfter base s) :
    base < start := by
  cases s with
  | nil => simp [startsAfter] at h
  | cons c s =>
    have hle := le_of_mem_startsAfter_cons h
    have hpos := c.utf8Size_pos
    omega

theorem pairwise_startsAfter (base : Nat) (s : Text) : (startsAfter base s).Pairwise (· < ·) := by
  induction s generalizing base with
  | nil => exact .nil
  | cons c s ih =>
    simp only [startsAfter]
    split
    · exact .cons (fun _ => lt_of_mem_startsAfter) (ih _)
    · exact ih _

theorem pairwise_lineStarts (f : SourceFile) : f.lineStarts.Pairwise (· < ·) :=
  .cons (fun _ => lt_of_mem_startsAfter) (pairwise_startsAfter 0 f.text)

/-- In an increasing list the numbers up to a bound come first. -/
theorem le_iff_lt_countP {l : List Nat} (h : l.Pairwise (· < ·)) {i n : Nat} (hn : l[i]? = some n)
    (bound : Nat) : n ≤ bound ↔ i < l.countP (· ≤ bound) := by
  induction l generalizing i with
  | nil => cases hn
  | cons m l ih =>
    obtain ⟨hm, hl⟩ := List.pairwise_cons.1 h
    by_cases hbound : m ≤ bound
    · rw [List.countP_cons_of_pos (by simpa using hbound)]
      cases i with
      | zero =>
        cases hn
        exact ⟨fun _ => Nat.succ_pos _, fun _ => hbound⟩
      | succ i => rw [ih hl hn, Nat.succ_lt_succ_iff]
    · -- The first number is above the bound, and so are all others.
      have hnone : (m :: l).countP (· ≤ bound) = 0 := by
        rw [List.countP_eq_zero]
        intro k hk
        rcases List.mem_cons.1 hk with rfl | hk
        · simpa using hbound
        · have hlt := hm k hk
          simp only [decide_eq_true_eq]
          omega
      rw [hnone]
      rcases List.mem_cons.1 (List.mem_of_getElem? hn) with rfl | hmem
      · omega
      · have hlt := hm n hmem
        omega

/-- The starts up to an offset stand in the index in front of the number of its line. -/
theorem start_le_iff (f : SourceFile) {index start : Nat} (h : f.lineStarts[index]? = some start)
    (offset : Nat) : start ≤ offset ↔ index < f.lineOfOffset offset :=
  le_iff_lt_countP f.pairwise_lineStarts h offset

/-! ## The line of an offset -/

theorem lineOfOffset_mono (f : SourceFile) : Monotone f.lineOfOffset := by
  intro offset offset' hle
  refine List.countP_mono_left fun start _ hstart => ?_
  simp only [decide_eq_true_eq] at hstart ⊢
  omega

/-- An offset lies on a line exactly if it is that of a byte of the line, or that behind
    its last byte, which is the line feed or the end of the text. -/
theorem lineOfOffset_eq_iff {before line after : Text} (h : Text.IsLine before line after)
    (name : Text) {offset : Nat}
    (hoffset : offset ≤ Text.byteLength (before ++ (line ++ after))) :
    lineOfOffset ⟨name, before ++ (line ++ after)⟩ offset = Text.lineFeeds before + 1 ↔
      Text.byteLength before ≤ offset ∧
        offset ≤ Text.byteLength before + Text.byteLength line := by
  let f : SourceFile := ⟨name, before ++ (line ++ after)⟩
  have hstart := f.start_le_iff (getElem?_lineStarts name (line ++ after) h.starts) offset
  have hbehind := getElem?_lineStarts_behind h name
  change f.lineOfOffset offset = _ ↔ _
  rcases h.stops with rfl | ⟨rest, rfl⟩
  · -- The last line: no number is larger, and no offset either.
    have hlast : f.lineOfOffset offset ≤ Text.lineFeeds before + 1 := by
      have hcount := f.lineOfOffset_le_lineCount offset
      rw [lineCount_eq, h.lineFeeds_eq] at hcount
      exact hcount
    rw [List.append_nil, Text.byteLength_append] at hoffset
    omega
  · rw [if_neg (by simp)] at hbehind
    have hnext := f.start_le_iff hbehind offset
    omega

/-! ## Contents of lines -/

/-- At most one carriage return is taken off the end of a line. -/
theorem stripReturn_cases (s : Text) :
    s = stripReturn s ++ ['\r'] ∨ s = stripReturn s ∧ s.getLast? ≠ some '\r' := by
  rw [stripReturn]
  split
  · next h => exact .inl (List.dropLast_append_getLast? _ h).symm
  · next h => exact .inr ⟨rfl, h⟩

theorem isSome_line?_iff (f : SourceFile) (n : Nat) :
    (f.line? n).isSome ↔ 1 ≤ n ∧ n ≤ f.lineCount := by
  cases n with
  | zero => simp [line?]
  | succ index =>
    rw [line?_succ, Option.isSome_map, isSome_getElem?, Text.length_lines, lineCount_eq]
    omega

/-- Behind the last line the text ends, and behind every other stands its line feed. -/
theorem stops_of_isLine {before line after : Text} (h : Text.IsLine before line after)
    (name : Text) :
    let f : SourceFile := ⟨name, before ++ (line ++ after)⟩
    Text.lineFeeds before + 1 = f.lineCount ∧ after = [] ∨
      Text.lineFeeds before + 1 < f.lineCount ∧ ∃ rest, after = '\n' :: rest := by
  intro f
  have hcount : f.lineCount = Text.lineFeeds before + Text.lineFeeds after + 1 := by
    rw [lineCount_eq, h.lineFeeds_eq]
  rcases h.stops with rfl | ⟨rest, rfl⟩
  · exact .inl ⟨hcount.symm, rfl⟩
  · have hfeed : Text.lineFeeds ('\n' :: rest) = Text.lineFeeds rest + 1 := List.count_cons_self
    exact .inr ⟨by omega, rest, rfl⟩

/-! ## The index as a whole -/

/-- The lines of a text with fewer than 2³² lines, as the index finds them.

    There is one line more than line feeds, and exactly the numbers from one to the number
    of lines have a line. It is cut out of the text between two bytes, both of them between
    two characters or at an end: the bytes in between encode the piece between two line
    feeds, which is shown without one carriage return at its end. An offset within the text
    lies on the line whose bytes hold it, its line feed included. The end of the text lies
    on the last line.

    The number of an offset's line counts the line feeds among the bytes before it, is that
    of a line, needs no more than 32 bits, and is the place in the index in front of which
    stand the starts up to the offset. -/
theorem lineIndex_consistent (f : SourceFile) (h : f.lineCount < 2 ^ 32) :
    f.lineCount = Text.lineFeeds f.text + 1 ∧
    (∀ n, (f.line? n).isSome ↔ 1 ≤ n ∧ n ≤ f.lineCount) ∧
    (∀ n, f.line? n = (f.bounds? n).map fun b =>
      stripReturn (Text.takeBytes (b.2 - b.1) (Text.dropBytes b.1 f.text))) ∧
    (∀ n, 1 ≤ n → n ≤ f.lineCount → ∃ before line after content start stop,
      f.text = before ++ (line ++ after) ∧
      (Text.lines f.text)[n - 1]? = some line ∧
      f.bounds? n = some (start, stop) ∧
      start = Text.byteLength before ∧ stop = Text.byteLength (before ++ line) ∧
      ((Text.bytes f.text).drop start).take (stop - start) = Text.bytes line ∧
      f.line? n = some content ∧
      (line = content ++ ['\r'] ∨ line = content ∧ line.getLast? ≠ some '\r') ∧
      (n = f.lineCount ∧ after = [] ∨ n < f.lineCount ∧ ∃ rest, after = '\n' :: rest) ∧
      ∀ offset ≤ Text.byteLength f.text,
        f.lineOfOffset offset = n ↔ start ≤ offset ∧ offset < stop + 1) ∧
    Monotone f.lineOfOffset ∧
    ∀ offset,
      f.lineOfOffset offset = 1 + ((Text.bytes f.text).take
        (min offset (Text.byteLength f.text))).count Text.feedByte ∧
      1 ≤ f.lineOfOffset offset ∧ f.lineOfOffset offset ≤ f.lineCount ∧
      f.lineOfOffset offset < 2 ^ 32 ∧
      ∀ index start, f.lineStarts[index]? = some start →
        (start ≤ offset ↔ index < f.lineOfOffset offset) := by
  refine ⟨f.lineCount_eq, f.isSome_line?_iff, f.line?_eq_slice, ?_, f.lineOfOffset_mono,
    fun offset => ?_⟩
  · intro n hfirst hlast
    obtain ⟨name, text⟩ := f
    have hindex : n - 1 ≤ Text.lineFeeds text := by
      rw [lineCount_eq] at hlast
      exact Nat.sub_le_of_le_add hlast
    obtain ⟨before, line, after, rfl, hline, hfeeds⟩ := Text.exists_isLine_of_le hindex
    obtain rfl : n = Text.lineFeeds before + 1 := by omega
    have hstop : Text.byteLength (before ++ line) =
        Text.byteLength before + Text.byteLength line := Text.byteLength_append before line
    refine ⟨before, line, after, stripReturn line, _, _, rfl, Text.getElem?_lines_of_isLine hline,
      bounds?_of_isLine hline name, rfl, hstop.symm, ?_, ?_, stripReturn_cases line,
      stops_of_isLine hline name, fun offset hoffset => ?_⟩
    · rw [Nat.add_sub_cancel_left, Text.bytes_slice]
    · rw [Nat.add_comm, line?_of_isLine hline]
    · rw [lineOfOffset_eq_iff hline name hoffset, Nat.lt_succ_iff]
  · have hcount := f.lineOfOffset_eq offset
    have hlast := f.lineOfOffset_le_lineCount offset
    refine ⟨?_, by omega, hlast, by omega, fun index start hstart => f.start_le_iff hstart offset⟩
    rw [hcount, Nat.add_comm, ← Text.length_bytes, ← List.take_eq_take_min]

/-- Characters of three bytes, both terminators, an empty line, and no line feed at the
    end. -/
def mixedLines : SourceFile := ⟨"main", "ক\r\n\nখ"⟩

/-- The first line is shown without its carriage return, and its line feed, at byte 4, lies
    on it. Byte 7 lies inside the character on the last line. -/
theorem lineIndex_consistent_mixedLines :
    mixedLines.lineCount < 2 ^ 32 ∧ mixedLines.lineCount = 3 ∧
    mixedLines.line? 1 = some ['ক'] ∧ mixedLines.line? 4 = none ∧
    mixedLines.lineOfOffset 4 = 1 ∧ mixedLines.lineOfOffset 5 = 2 ∧
    mixedLines.lineOfOffset 7 = 3 ∧ mixedLines.lineOfOffset 9 = 3 := by
  have hsmall : mixedLines.lineCount < 2 ^ 32 := by decide
  obtain ⟨hcount, hsome, hslice, hlines, -, -⟩ := lineIndex_consistent mixedLines hsmall
  have hthree : mixedLines.lineCount = 3 := hcount
  have hplace : ∀ n start stop offset, 1 ≤ n → n ≤ 3 → mixedLines.bounds? n = some (start, stop) →
      offset ≤ 9 → start ≤ offset → offset < stop + 1 → mixedLines.lineOfOffset offset = n := by
    intro n start stop offset hfirst hlast hbounds hoffset hstart hstop
    obtain ⟨_, _, _, _, start', stop', -, -, hbounds', -, -, -, -, -, -, hiff⟩ :=
      hlines n hfirst (hthree ▸ hlast)
    obtain ⟨rfl, rfl⟩ := Prod.mk.inj (Option.some.inj (hbounds.symm.trans hbounds'))
    exact (hiff offset hoffset).2 ⟨hstart, hstop⟩
  refine ⟨hsmall, hthree, ?_, ?_, ?_, ?_, ?_, ?_⟩
  · rw [hslice]
    decide
  · rw [← Option.not_isSome_iff_eq_none, hsome, hthree]
    decide
  · exact hplace 1 0 4 4 (by decide) (by decide) (by decide) (by decide) (by decide) (by decide)
  · exact hplace 2 5 5 5 (by decide) (by decide) (by decide) (by decide) (by decide) (by decide)
  · exact hplace 3 6 9 7 (by decide) (by decide) (by decide) (by decide) (by decide) (by decide)
  · exact hplace 3 6 9 9 (by decide) (by decide) (by decide) (by decide) (by decide) (by decide)

end SourceFile
end BanglaSource
