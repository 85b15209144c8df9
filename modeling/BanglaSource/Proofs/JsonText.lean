-- SUMMARY: Printed JSON text reads back as the tree of the value, in front of any text that continues no numeral.
import BanglaSource.Json.Printer
import BanglaSource.Json.Tree
import BanglaSource.Proofs.Characters

/-!
# Reading printed JSON

A value without floating-point numbers is printed in one way, and the text read
back is the tree of that value. So texts of different trees differ. What stands
behind a text matters only behind a numeral, which has no end of its own.
-/
namespace BanglaSource.Json

/-! ## Strings -/

namespace Tree

/-- A printed character is an escape of one letter, an escape of four digits or
    the character itself. -/
theorem escape_cases (c : Char) :
    (∃ letter, escape c = ['\\', letter] ∧ letter ≠ 'u' ∧ unescape? letter = some c) ∨
    (c.toNat < 0x20 ∧ escape c =
      ['\\', 'u', '0', '0', Nat.digitChar (c.toNat / 16), Nat.digitChar (c.toNat % 16)]) ∨
    (escape c = [c] ∧ c ≠ '\x22' ∧ c ≠ '\\' ∧ 0x20 ≤ c.toNat) := by
  unfold escape
  split
  iterate 7 exact .inl ⟨_, rfl, by decide, rfl⟩
  · next hquote hbackslash _ _ _ _ _ =>
    split
    · next hcontrol => exact .inr (.inl ⟨hcontrol, rfl⟩)
    · next hcontrol => exact .inr (.inr ⟨rfl, hquote, hbackslash, Nat.le_of_not_lt hcontrol⟩)

theorem hex4?_control : ∀ n < 0x20,
    hex4? '0' '0' (Nat.digitChar (n / 16)) (Nat.digitChar (n % 16)) = some n := by
  decide

theorem readUnits_letter {letter c : Char} (hu : letter ≠ 'u') (h : unescape? letter = some c)
    (s : Text) :
    readUnits ('\\' :: letter :: s) =
      (readUnits s).map fun (units, rest) => (.char c :: units, rest) := by
  rw [readUnits.eq_4 _ _ fun _ _ _ _ _ heq _ => hu heq]
  cases readUnits s <;> simp [h]

theorem readUnits_char {c : Char} (hquote : c ≠ '\x22') (hbackslash : c ≠ '\\')
    (hcontrol : 0x20 ≤ c.toNat) (s : Text) :
    readUnits (c :: s) = (readUnits s).map fun (units, rest) => (.char c :: units, rest) := by
  have hlow : ¬ c.toNat < 0x20 := Nat.not_lt_of_le hcontrol
  rw [readUnits.eq_5 _ _ hquote (fun _ _ _ _ _ heq _ => hbackslash heq)
    (fun _ _ heq _ => hbackslash heq), if_neg hlow]

theorem textOfUnits?_code {n : Nat} (h : n < 0xD800) (units : List Unit) :
    textOfUnits? (.code n :: units) = (textOfUnits? units).map (Char.ofNat n :: ·) := by
  have hhigh : isHighSurrogate n = false := by simp [isHighSurrogate]; omega
  have hlow : isLowSurrogate n = false := by simp [isLowSurrogate]; omega
  cases units with
  | nil => simp [textOfUnits?, hhigh, hlow]
  | cons u units => cases u <;> simp [textOfUnits?, hhigh, hlow]

/-- A printed character is read as one unit that stands for the character. -/
theorem exists_unit (c : Char) : ∃ u : Unit,
    (∀ s, readUnits (escape c ++ s) =
      (readUnits s).map fun (units, rest) => (u :: units, rest)) ∧
    ∀ units, textOfUnits? (u :: units) = (textOfUnits? units).map (c :: ·) := by
  rcases escape_cases c with
    ⟨letter, heq, hu, hletter⟩ | ⟨hcontrol, heq⟩ | ⟨heq, hquote, hbackslash, hcontrol⟩
  · refine ⟨.char c, fun s => ?_, fun units => by simp [textOfUnits?]⟩
    rw [heq]
    exact readUnits_letter hu hletter s
  · refine ⟨.code c.toNat, fun s => ?_, fun units => ?_⟩
    · simp only [heq, List.cons_append, List.nil_append, readUnits, hex4?_control _ hcontrol]
      cases readUnits s <;> rfl
    · rw [textOfUnits?_code (by omega), Char.ofNat_toNat]
  · refine ⟨.char c, fun s => ?_, fun units => by simp [textOfUnits?]⟩
    rw [heq]
    exact readUnits_char hquote hbackslash hcontrol s

theorem readString_quote (s rest : Text) :
    readString (s.flatMap escape ++ '\x22' :: rest) = some (some s, rest) := by
  have hunits : ∃ units, readUnits (s.flatMap escape ++ '\x22' :: rest) = some (units, rest) ∧
      textOfUnits? units = some s := by
    induction s with
    | nil => exact ⟨[], by simp [readUnits], rfl⟩
    | cons c s ih =>
      obtain ⟨units, hread, htext⟩ := ih
      obtain ⟨u, hu, hc⟩ := exists_unit c
      exact ⟨u :: units, by simp [hu, hread], by simp [hc, htext]⟩
  obtain ⟨units, hread, htext⟩ := hunits
  simp [readString, hread, htext]

end Tree

/-! ## Numerals -/

namespace Numeral

/-- The numeral as which a whole number is printed. -/
def ofInt (i : Int) : Numeral where
  negative := i < 0
  whole := Text.ofNat i.natAbs
  fraction := none
  exponent := none

/-- Whether `c` continues the numeral of a whole number. -/
def isPart (c : Char) : Bool :=
  c.isDigit || c == '.' || c == 'e' || c == 'E'

theorem isDigit_ofNat {n : Nat} : ∀ c ∈ Text.ofNat n, c.isDigit = true := fun _ hc =>
  Nat.isDigit_of_mem_toDigits (by decide) (by decide) hc

theorem ofNat_eq_cons (n : Nat) : ∃ c s, Text.ofNat n = c :: s ∧ (n ≠ 0 → c ≠ '0') := by
  induction n using Nat.strongRecOn with
  | _ n ih =>
    by_cases hn : n < 10
    · refine ⟨n.digitChar, [], Nat.toDigits_of_lt_base hn, ?_⟩
      intro hzero heq
      exact hzero (Nat.digitChar_eq_zero.1 heq)
    · obtain ⟨c, s, heq, hc⟩ := ih (n / 10) (by omega)
      refine ⟨c, s ++ [(n % 10).digitChar], ?_, fun _ => hc (by omega)⟩
      rw [Text.ofNat] at heq ⊢
      rw [Nat.toDigits_of_base_le (by decide) (by omega), heq, List.cons_append]

theorem readDigits_append {digits rest : Text} (hne : digits ≠ [])
    (hdigits : ∀ c ∈ digits, c.isDigit = true) (hrest : rest.Avoids Char.isDigit) :
    readDigits (digits ++ rest) = some (digits, rest) := by
  obtain ⟨c, s, rfl⟩ := List.exists_cons_of_ne_nil hne
  rw [readDigits, Text.takeWhile_append_of_avoids hdigits hrest,
    Text.dropWhile_append_of_avoids hdigits hrest]

theorem readWhole_ofNat (n : Nat) {rest : Text} (hrest : rest.Avoids Char.isDigit) :
    readWhole (Text.ofNat n ++ rest) = some (Text.ofNat n, rest) := by
  by_cases hn : n = 0
  · subst hn; rfl
  · obtain ⟨c, s, heq, hc⟩ := ofNat_eq_cons n
    rw [heq, List.cons_append, readWhole.eq_2 _ fun s heq => hc hn (List.cons.inj heq).1,
      ← List.cons_append, ← heq]
    exact readDigits_append (by simp [heq]) isDigit_ofNat hrest

theorem readFraction_of_avoids {rest : Text} (h : rest.Avoids isPart) :
    readFraction rest = some (none, rest) := by
  apply readFraction.eq_2
  intro s heq
  rw [heq, Text.avoids_cons] at h
  exact absurd h (by decide)

theorem readExponent_of_avoids {rest : Text} (h : rest.Avoids isPart) :
    readExponent rest = some (none, rest) := by
  unfold readExponent
  split
  iterate 2 (rw [Text.avoids_cons] at h; exact absurd h (by decide))
  · rfl

theorem avoids_isDigit {rest : Text} (h : rest.Avoids isPart) : rest.Avoids Char.isDigit := by
  intro c hc
  have hpart := h c hc
  simp only [isPart, Bool.or_eq_false_iff] at hpart
  exact hpart.1.1.1

/-- A printed whole number is read up to a character that does not continue it. -/
theorem read_printInt (i : Int) {rest : Text} (hrest : rest.Avoids isPart) :
    read (printInt i ++ rest) = some (ofInt i, rest) := by
  have hwhole : ∀ n, readWhole (Text.ofNat n ++ rest) = some (Text.ofNat n, rest) := fun n =>
    readWhole_ofNat n (avoids_isDigit hrest)
  have hfraction := readFraction_of_avoids hrest
  have hexponent := readExponent_of_avoids hrest
  cases i with
  | ofNat n =>
    obtain ⟨c, s, heq, -⟩ := ofNat_eq_cons n
    have hdigit : c.isDigit = true := isDigit_ofNat c (by rw [heq]; exact List.mem_cons_self)
    have hsign : c ≠ '-' := by rintro rfl; exact absurd hdigit (by decide)
    have hn := hwhole n
    rw [heq] at hn
    simp only [printInt, heq, List.cons_append] at hn ⊢
    unfold read
    split
    next hsplit =>
      split at hsplit
      · next h => exact absurd (List.cons.inj h).1 hsign
      · cases hsplit
        simp [hn, hfraction, hexponent, ofInt, heq]
  | negSucc n =>
    simp [read, printInt, hwhole, hfraction, hexponent, ofInt]

theorem accumulate_eq {s : Text} {n : Nat}
    (h : Nat.ofDigitChars 10 s n < 0x10000000000000000) :
    accumulate n s = (Nat.ofDigitChars 10 s n, 0) := by
  induction s generalizing n with
  | nil => simp [accumulate]
  | cons c s ih =>
    rw [Nat.ofDigitChars_cons] at h ⊢
    have hle : 10 * n + (c.toNat - '0'.toNat) ≤
        Nat.ofDigitChars 10 s (10 * n + (c.toNat - '0'.toNat)) := by
      rw [Nat.ofDigitChars_eq_ofDigitChars_zero]
      exact Nat.le_add_right_of_le (Nat.le_mul_of_pos_left _ (Nat.pow_pos (by decide)))
    rw [accumulate, if_pos (Nat.lt_of_le_of_lt hle h), ih h]

/-- Whether a number fits into 64 bits, signed or unsigned. -/
def Fits (i : Int) : Prop :=
  -0x8000000000000000 ≤ i ∧ i < 0x10000000000000000

/-- The numeral of a whole number that fits into 64 bits denotes the number. -/
theorem number?_ofInt {i : Int} (h : Fits i) : (ofInt i).number? = some (.int i) := by
  obtain ⟨hlow, hhigh⟩ := h
  have hmagnitude : Nat.ofDigitChars 10 (Text.ofNat i.natAbs) 0 = i.natAbs :=
    Nat.ofDigitChars_ten_toDigits
  have hwhole : accumulate 0 (Text.ofNat i.natAbs) = (i.natAbs, 0) := by
    rw [accumulate_eq (by rw [hmagnitude]; omega), hmagnitude]
  have hint : int? (i < 0) i.natAbs = some i := by
    simp only [int?, decide_eq_true_eq, Bool.or_eq_true]
    split
    · rw [if_neg (by omega)]
      congr 1
      omega
    · congr 1
      omega
  simp [number?, ofInt, hwhole, hint]

end Numeral

/-! ## Values -/

/-- Values whose numbers are whole and satisfy `p`. -/
inductive Whole (p : Int → Prop) : Json → Prop
  | null : Whole p .null
  | bool (b : Bool) : Whole p (.bool b)
  | int {i : Int} : p i → Whole p (.num (.int i))
  | str (s : Text) : Whole p (.str s)
  | arr {items : List Json} : (∀ v ∈ items, Whole p v) → Whole p (.arr items)
  | obj {fields : Assoc Json} : (∀ f ∈ fields, Whole p f.2) → Whole p (.obj fields)

namespace Tree

mutual
/-- The tree as which a value is printed. Floating-point numbers are left out of
    account. -/
def ofJson : Json → Tree
  | .null => .null
  | .bool b => .bool b
  | .num (.int i) => .num (.ofInt i)
  | .num (.float _) => .null
  | .str s => .str (some s)
  | .arr items => .arr (ofItems items)
  | .obj fields => .obj (ofFields fields)

def ofItems : List Json → List Tree
  | [] => []
  | v :: vs => ofJson v :: ofItems vs

def ofFields : Assoc Json → List (Option Text × Tree)
  | [] => []
  | (key, v) :: fields => (some key, ofJson v) :: ofFields fields
end

variable {p : Int → Prop}

theorem skipSpace_cons {c : Char} (h : isSpace c = false) (s : Text) :
    skipSpace (c :: s) = c :: s :=
  Text.dropWhile_of_avoids (by simpa using h)

theorem printInt_eq_cons (i : Int) :
    ∃ c s, printInt i = c :: s ∧ (c.isDigit = true ∨ c = '-') := by
  cases i with
  | ofNat n =>
    obtain ⟨c, s, heq, -⟩ := Numeral.ofNat_eq_cons n
    exact ⟨c, s, heq, .inl (Numeral.isDigit_ofNat c (by rw [heq]; exact List.mem_cons_self))⟩
  | negSucc n => exact ⟨'-', _, rfl, .inr rfl⟩

theorem ne_of_numeral {c d : Char} (hc : c.isDigit = true ∨ c = '-') (hd : d.isDigit = false)
    (hsign : d ≠ '-') : c ≠ d := by
  rintro rfl
  rcases hc with hc | rfl
  · rw [hc] at hd; cases hd
  · exact hsign rfl

theorem not_isSpace_of_numeral {c : Char} (hc : c.isDigit = true ∨ c = '-') :
    isSpace c = false := by
  simp [isSpace, ne_of_numeral hc (d := ' '), ne_of_numeral hc (d := '\t'),
    ne_of_numeral hc (d := '\n'), ne_of_numeral hc (d := '\r')]

theorem read_numeral {c : Char} (hc : c.isDigit = true ∨ c = '-') (n : Nat) (s : Text) :
    read (n + 1) (c :: s) = (Numeral.read (c :: s)).map fun (m, s) => (.num m, s) := by
  have hne : ∀ d, d.isDigit = false → d ≠ '-' → c ≠ d := fun d => ne_of_numeral hc
  rw [read, skipSpace_cons (not_isSpace_of_numeral hc)]
  split
  · next heq => exact absurd (List.cons.inj heq).1 (hne '[' (by decide) (by decide))
  · next heq => exact absurd (List.cons.inj heq).1 (hne '\x7b' (by decide) (by decide))
  · next heq => exact absurd (List.cons.inj heq).1 (hne '\x22' (by decide) (by decide))
  · unfold readAtom
    split
    · next heq => exact absurd (List.cons.inj heq).1 (hne 'n' (by decide) (by decide))
    · next heq => exact absurd (List.cons.inj heq).1 (hne 't' (by decide) (by decide))
    · next heq => exact absurd (List.cons.inj heq).1 (hne 'f' (by decide) (by decide))
    · rfl

/-- Printed values start with no space and with no closing bracket. -/
theorem print_eq_cons {v : Json} (h : Whole p v) :
    ∃ c s, print v = c :: s ∧ isSpace c = false ∧ c ≠ ']' := by
  cases h with
  | null => exact ⟨_, _, rfl, by decide, by decide⟩
  | bool b => cases b <;> exact ⟨_, _, rfl, by decide, by decide⟩
  | int =>
    obtain ⟨c, s, heq, hc⟩ := printInt_eq_cons _
    exact ⟨c, s, heq, not_isSpace_of_numeral hc, ne_of_numeral hc (by decide) (by decide)⟩
  | str s => exact ⟨_, _, rfl, by decide, by decide⟩
  | @arr items _ => cases items <;> exact ⟨_, _, rfl, by decide, by decide⟩
  | @obj fields _ => cases fields <;> exact ⟨_, _, rfl, by decide, by decide⟩

/-- A printed value is read back in front of any text that continues no numeral. -/
def ReadsBack (v : Json) : Prop :=
  ∀ n rest, 2 * (print v).length ≤ n → rest.Avoids Numeral.isPart →
    read n (print v ++ rest) = some (ofJson v, rest)

theorem readItems_print {v : Json} {vs : List Json} (hv : ReadsBack v)
    (hvs : ∀ w ∈ vs, ReadsBack w) {n : Nat} (rest : Text)
    (hn : 2 * (print v ++ printItems vs).length ≤ n) :
    readItems n (print v ++ printItems vs ++ rest) = some (ofItems (v :: vs), rest) := by
  induction vs generalizing v n with
  | nil =>
    simp only [printItems, List.length_append, List.length_singleton] at hn
    obtain ⟨n, rfl⟩ : ∃ m, n = m + 1 := ⟨n - 1, by omega⟩
    have hitem := hv n (']' :: rest) (by omega) ((Text.avoids_cons ..).2 (by decide))
    simp [readItems, printItems, hitem, skipSpace_cons (c := ']') (by decide), ofItems]
  | cons w ws ih =>
    simp only [printItems, List.length_append, List.length_cons] at hn
    obtain ⟨n, rfl⟩ : ∃ m, n = m + 1 := ⟨n - 1, by omega⟩
    have hitem := hv n (',' :: (print w ++ printItems ws ++ rest)) (by omega)
      ((Text.avoids_cons ..).2 (by decide))
    have hitems := ih (hvs w List.mem_cons_self) (fun u hu => hvs u (List.mem_cons_of_mem _ hu))
      (n := n) (by simp only [List.length_append]; omega)
    simp only [printItems, List.append_assoc, List.cons_append] at hitem hitems ⊢
    simp [readItems, hitem, hitems, skipSpace_cons (c := ',') (by decide), ofItems]

theorem quote_append (key s : Text) :
    quote key ++ s = '\x22' :: (key.flatMap escape ++ '\x22' :: s) := by
  simp [quote]

theorem readFields_print (key : Text) {v : Json} {fields : Assoc Json} (hv : ReadsBack v)
    (hfields : ∀ f ∈ fields, ReadsBack f.2) {n : Nat} (rest : Text)
    (hn : 2 * (quote key ++ ':' :: print v ++ printFields fields).length ≤ n) :
    readFields n (quote key ++ ':' :: print v ++ printFields fields ++ rest) =
      some (ofFields ((key, v) :: fields), rest) := by
  induction fields generalizing key v n with
  | nil =>
    simp only [printFields, List.length_append, List.length_cons, List.length_nil] at hn
    obtain ⟨n, rfl⟩ : ∃ m, n = m + 1 := ⟨n - 1, by omega⟩
    have hvalue := hv n ('\x7d' :: rest) (by omega) ((Text.avoids_cons ..).2 (by decide))
    simp only [printFields, List.append_assoc, List.cons_append, List.nil_append]
    rw [quote_append key]
    simp [readFields, skipSpace_cons (c := '\x22') (by decide), readString_quote,
      skipSpace_cons (c := ':') (by decide), hvalue, skipSpace_cons (c := '\x7d') (by decide),
      ofFields]
  | cons field fields ih =>
    obtain ⟨key', v'⟩ := field
    simp only [printFields, List.length_append, List.length_cons] at hn
    obtain ⟨n, rfl⟩ : ∃ m, n = m + 1 := ⟨n - 1, by omega⟩
    have hvalue := hv n (',' :: (quote key' ++ ':' :: print v' ++ printFields fields ++ rest))
      (by omega) ((Text.avoids_cons ..).2 (by decide))
    have hrest := ih key' (hfields _ List.mem_cons_self)
      (fun f hf => hfields f (List.mem_cons_of_mem _ hf)) (n := n)
      (by simp only [List.length_append, List.length_cons]; omega)
    simp only [printFields, List.append_assoc, List.cons_append] at hvalue hrest ⊢
    rw [quote_append key]
    simp [readFields, skipSpace_cons (c := '\x22') (by decide), readString_quote,
      skipSpace_cons (c := ':') (by decide), hvalue, hrest,
      skipSpace_cons (c := ',') (by decide), ofFields]

theorem read_bracket {c : Char} (hspace : isSpace c = false) (hbracket : c ≠ ']') (n : Nat)
    (s : Text) :
    read (n + 1) ('[' :: c :: s) =
      (readItems n (c :: s)).map fun (items, s) => (.arr items, s) := by
  rw [read, skipSpace_cons (by decide)]
  simp only [skipSpace_cons hspace]
  split
  · next heq => exact absurd (List.cons.inj heq).1 hbracket
  · rfl

theorem read_brace (n : Nat) (key s : Text) :
    read (n + 1) ('\x7b' :: (quote key ++ s)) =
      (readFields n (quote key ++ s)).map fun (fields, s) => (.obj fields, s) := by
  rw [read, skipSpace_cons (by decide), quote_append]
  simp [skipSpace_cons (c := '\x22') (by decide)]

theorem readsBack_of_succ {v : Json} (hv : Whole p v)
    (h : ∀ n rest, 2 * (print v).length ≤ n + 1 → rest.Avoids Numeral.isPart →
      read (n + 1) (print v ++ rest) = some (ofJson v, rest)) : ReadsBack v := by
  intro n rest hn hrest
  obtain ⟨c, s, heq, -⟩ := print_eq_cons hv
  cases n with
  | zero => simp [heq] at hn
  | succ n => exact h n rest hn hrest

theorem readsBack {v : Json} (h : Whole p v) : ReadsBack v := by
  induction h with
  | null =>
    apply readsBack_of_succ (p := p) .null
    intro n rest _ _
    simp [print, read, skipSpace_cons (c := 'n') (by decide), readAtom, ofJson]
  | bool b =>
    apply readsBack_of_succ (p := p) (.bool b)
    intro n rest _ _
    cases b with
    | true => simp [print, read, skipSpace_cons (c := 't') (by decide), readAtom, ofJson]
    | false => simp [print, read, skipSpace_cons (c := 'f') (by decide), readAtom, ofJson]
  | @int i hi =>
    apply readsBack_of_succ (.int hi)
    intro n rest _ hrest
    obtain ⟨c, s, heq, hc⟩ := printInt_eq_cons i
    have hread := Numeral.read_printInt i hrest
    rw [heq, List.cons_append] at hread
    simp only [print, printNumber, heq, List.cons_append]
    rw [read_numeral hc, hread]
    rfl
  | str s =>
    apply readsBack_of_succ (p := p) (.str s)
    intro n rest _ _
    rw [print, quote_append]
    simp [read, skipSpace_cons (c := '\x22') (by decide), readString_quote, ofJson]
  | @arr items hitems ih =>
    apply readsBack_of_succ (.arr hitems)
    intro n rest hn _
    cases items with
    | nil =>
      simp [print, read, skipSpace_cons (c := '[') (by decide),
        skipSpace_cons (c := ']') (by decide), ofJson, ofItems]
    | cons v vs =>
      simp only [print, List.length_append, List.length_cons] at hn
      have hread := readItems_print (ih v List.mem_cons_self)
        (fun w hw => ih w (List.mem_cons_of_mem _ hw)) (n := n) rest
        (by simp only [List.length_append]; omega)
      obtain ⟨c, s, heq, hspace, hbracket⟩ := print_eq_cons (hitems v List.mem_cons_self)
      simp only [print, heq, List.cons_append] at hread ⊢
      rw [read_bracket hspace hbracket, hread]
      rfl
  | @obj fields hfields ih =>
    apply readsBack_of_succ (.obj hfields)
    intro n rest hn _
    cases fields with
    | nil =>
      simp [print, read, skipSpace_cons (c := '\x7b') (by decide),
        skipSpace_cons (c := '\x7d') (by decide), ofJson, ofFields]
    | cons field fields =>
      obtain ⟨key, v⟩ := field
      simp only [print, List.length_append, List.length_cons] at hn
      have hread := readFields_print key (ih (key, v) List.mem_cons_self)
        (fun f hf => ih f (List.mem_cons_of_mem _ hf)) (n := n) rest
        (by simp only [List.length_append, List.length_cons]; omega)
      simp only [print, List.append_assoc, List.cons_append] at hread ⊢
      rw [read_brace, hread]
      rfl

/-- The printed text of a value is the text of one tree, that of the value. -/
theorem parse?_print {v : Json} (h : Whole p v) : parse? (print v) = some (ofJson v) := by
  have hread := readsBack h (2 * (print v).length + 2) [] (by omega) (Text.avoids_nil _)
  rw [List.append_nil] at hread
  simp only [parse?, hread, Option.bind_eq_bind, Option.bind_some]
  exact if_pos rfl

end Tree
end BanglaSource.Json
