-- SUMMARY: The line of a byte offset counts the line feeds among the bytes before it, and lines by number are the texts between line feeds.
import BanglaSource.Proofs.ContentKeys
import BanglaSource.Proofs.LineCounts
import BanglaSource.Proofs.LineIndex

/-!
# Lines and bytes

Offsets count bytes of the UTF-8 encoding, while the index of a source file is made
from characters. In the encoding a line feed is a single byte, which is part of no other
character. So the starts of lines up to an offset are as many as the line feeds among
the bytes before it, wherever the offset lies: behind a line feed, inside a character
or past the end.
-/
namespace BanglaSource

namespace Text

/-! ## Line feeds among bytes -/

/-- The byte of a line feed. -/
def feedByte : UInt8 := '\n'.toUInt8

theorem bytes_eq_flatMap (s : Text) : bytes s = s.flatMap String.utf8EncodeChar := by
  rw [bytes, ByteArray.toList, toList_loop_eq, List.reverse_nil, List.nil_append, List.drop_zero,
    utf8, String.toUTF8_eq_toByteArray, String.toByteArray_ofList, List.utf8Encode,
    List.data_toByteArray]

@[simp] theorem bytes_nil : bytes [] = [] := by
  rw [bytes_eq_flatMap, List.flatMap_nil]

theorem bytes_cons (c : Char) (s : Text) : bytes (c :: s) = String.utf8EncodeChar c ++ bytes s := by
  rw [bytes_eq_flatMap, List.flatMap_cons, bytes_eq_flatMap]

theorem length_bytes (s : Text) : (bytes s).length = byteLength s := by
  induction s with
  | nil => simp [byteLength]
  | cons c s ih => rw [bytes_cons, List.length_append, String.length_utf8EncodeChar, ih, byteLength]

/-- Only a line feed has its byte in its encoding. -/
theorem feedByte_notMem_utf8EncodeChar {c : Char} (h : c ≠ '\n') :
    feedByte ∉ String.utf8EncodeChar c := by
  have hcode : c.val.toNat ≠ 10 := by
    intro hcode
    exact h (Char.ext (UInt32.toNat_inj.1 hcode))
  have hbyte : ∀ n, feedByte = UInt8.ofNat n → n % 256 = 10 := by
    intro n hn
    have hnat := congrArg UInt8.toNat hn
    rw [UInt8.toNat_ofNat'] at hnat
    exact hnat.symm
  intro hmem
  rw [String.utf8EncodeChar.eq_1] at hmem
  split at hmem
  · rw [List.mem_singleton] at hmem
    have := hbyte _ hmem
    omega
  · -- The bytes of longer encodings are all above those of ASCII.
    split at hmem
    · simp only [List.mem_cons, List.not_mem_nil, or_false] at hmem
      rcases hmem with hmem | hmem <;> have := hbyte _ hmem <;> omega
    · split at hmem
      · simp only [List.mem_cons, List.not_mem_nil, or_false] at hmem
        rcases hmem with hmem | hmem | hmem <;> have := hbyte _ hmem <;> omega
      · simp only [List.mem_cons, List.not_mem_nil, or_false] at hmem
        rcases hmem with hmem | hmem | hmem | hmem <;> have := hbyte _ hmem <;> omega

/-- The line feeds among the first bytes of a character. -/
theorem count_take_utf8EncodeChar (c : Char) (n : Nat) :
    ((String.utf8EncodeChar c).take n).count feedByte = if c = '\n' ∧ 0 < n then 1 else 0 := by
  by_cases hfeed : c = '\n'
  · have henc : String.utf8EncodeChar '\n' = [feedByte] := rfl
    subst hfeed
    cases n <;> simp [henc]
  · rw [if_neg fun h => hfeed h.1, List.count_eq_zero]
    exact fun hmem => feedByte_notMem_utf8EncodeChar hfeed (List.mem_of_mem_take hmem)

/-! ## Pieces between line feeds -/

theorem lines_append_cons (s t : Text) : lines (s ++ '\n' :: t) = lines s ++ lines t :=
  List.splitOnP_append_cons s t rfl

theorem lines_of_notMem {s : Text} (h : '\n' ∉ s) : lines s = [s] := by
  refine List.splitOnP_eq_singleton fun c hc => ?_
  rw [beq_eq_false_iff_ne]
  rintro rfl
  exact h hc

/-- A line is the piece behind as many others as line feeds stand before it. -/
theorem getElem?_lines_of_isLine {before line after : Text} (h : IsLine before line after) :
    (lines (before ++ (line ++ after)))[lineFeeds before]? = some line := by
  have hfirst : (lines (line ++ after))[0]? = some line := by
    rcases h.stops with rfl | ⟨s, rfl⟩
    · rw [List.append_nil, lines_of_notMem h.not_mem]
      rfl
    · rw [lines_append_cons, lines_of_notMem h.not_mem]
      rfl
  rcases h.starts with rfl | ⟨s, rfl⟩
  · exact hfirst
  · have hfeeds : lineFeeds (s ++ ['\n']) = (lines s).length := by
      rw [length_lines, lineFeeds_append]
      rfl
    rw [List.append_assoc, List.singleton_append, lines_append_cons, hfeeds,
      List.getElem?_append_right (Nat.le_refl _), Nat.sub_self, hfirst]

/-- There is a line behind every number of line feeds. -/
theorem exists_isLine_of_le {s : Text} {n : Nat} (h : n ≤ lineFeeds s) :
    ∃ before line after, s = before ++ (line ++ after) ∧ IsLine before line after ∧
      lineFeeds before = n := by
  obtain ⟨front, rest, rfl, hfront⟩ := exists_lineFeeds_eq h
  obtain ⟨before, left, right, after, rfl, rfl, hline⟩ := exists_isLine front rest
  exact ⟨before, left ++ right, after, by simp, hline, hline.lineFeeds_left.symm.trans hfront⟩

end Text

namespace SourceFile

theorem lineCount_eq (f : SourceFile) : f.lineCount = Text.lineFeeds f.text + 1 := by
  rw [lineCount, lineStarts, List.length_cons, length_startsAfter]

/-- Lines by number are the pieces between line feeds, without a carriage return at
    their end. -/
theorem line?_succ (f : SourceFile) (index : Nat) :
    f.line? (index + 1) = (Text.lines f.text)[index]?.map stripReturn := by
  by_cases hindex : index ≤ Text.lineFeeds f.text
  · obtain ⟨name, text⟩ := f
    obtain ⟨before, line, after, rfl, hline, rfl⟩ := Text.exists_isLine_of_le hindex
    rw [Nat.add_comm, line?_of_isLine hline, Text.getElem?_lines_of_isLine hline, Option.map_some]
  · have hstarts : f.lineStarts.length ≤ index := by
      rw [← lineCount, lineCount_eq]
      omega
    have hlines : (Text.lines f.text).length ≤ index := by
      rw [Text.length_lines]
      omega
    rw [line?, List.getElem?_eq_none hstarts, List.getElem?_eq_none hlines, Option.map_none,
      Option.map_none]

/-! ## Lines of offsets -/

/-- The starts of lines up to an offset are as many as the line feeds among the bytes
    before it. -/
theorem countP_startsAfter (base : Nat) (s : Text) (offset : Nat) :
    (startsAfter base s).countP (· ≤ base + offset) =
      ((Text.bytes s).take offset).count Text.feedByte := by
  induction s generalizing base offset with
  | nil => simp [startsAfter]
  | cons c s ih =>
    have htail : (startsAfter (base + c.utf8Size) s).countP (· ≤ base + offset) =
        ((Text.bytes s).take (offset - c.utf8Size)).count Text.feedByte := by
      by_cases hwhole : c.utf8Size ≤ offset
      · have hoffset : base + offset = base + c.utf8Size + (offset - c.utf8Size) := by omega
        rw [hoffset, ih]
      · -- The offset lies inside the character, in front of all starts behind it.
        have hnone : offset - c.utf8Size = 0 := by omega
        rw [hnone, List.take_zero, List.count_nil, List.countP_eq_zero]
        intro start hstart
        have hbound := (startsAfter_bounds hstart).1
        rw [decide_eq_true_eq]
        omega
    rw [Text.bytes_cons, List.take_append, List.count_append, Text.count_take_utf8EncodeChar,
      String.length_utf8EncodeChar, ← htail]
    by_cases hfeed : c = '\n'
    · have hstart : base + c.utf8Size ≤ base + offset ↔ 0 < offset := by
        have hsize : c.utf8Size = 1 := by rw [hfeed]; rfl
        omega
      simp only [startsAfter, if_pos hfeed, List.countP_cons, decide_eq_true_eq, hstart,
        and_iff_right hfeed]
      exact Nat.add_comm _ _
    · simp only [startsAfter, hfeed, if_false, false_and, Nat.zero_add]

theorem lineOfOffset_eq (f : SourceFile) (offset : Nat) :
    f.lineOfOffset offset = ((Text.bytes f.text).take offset).count Text.feedByte + 1 := by
  have hcount := countP_startsAfter 0 f.text offset
  rw [Nat.zero_add] at hcount
  rw [lineOfOffset, lineStarts, List.countP_cons_of_pos (by simp), hcount]

theorem lineOfOffset_le_lineCount (f : SourceFile) (offset : Nat) :
    f.lineOfOffset offset ≤ f.lineCount :=
  List.countP_le_length

/-- Every offset names a line that is there. -/
theorem exists_line?_lineOfOffset (f : SourceFile) (offset : Nat) :
    ∃ line, (Text.lines f.text)[f.lineOfOffset offset - 1]? = some line ∧
      f.line? (f.lineOfOffset offset) = some (stripReturn line) := by
  have hlast := f.lineOfOffset_le_lineCount offset
  rw [lineCount_eq, ← Text.length_lines] at hlast
  rw [lineOfOffset_eq] at hlast ⊢
  have hline := List.getElem?_eq_getElem hlast
  exact ⟨_, hline, by rw [line?_succ, hline, Option.map_some]⟩

end SourceFile
end BanglaSource
