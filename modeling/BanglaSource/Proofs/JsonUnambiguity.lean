-- SUMMARY: The text of a value without floating-point numbers is the text of no other value, whatever follows it.
import BanglaSource.Proofs.JsonText

/-!
# Unambiguous text

A text that starts with the text of a value without floating-point numbers starts
with the text of no other value, floating-point numbers included, as long as what
follows continues no numeral. The first character tells the constructors apart,
quotes and brackets tell where a part ends, and a numeral ends with its digits.
-/
namespace BanglaSource.Json

/-! ## Strings -/

theorem quote_append_inj {s s' r r' : Text} (h : quote s ++ r = quote s' ++ r') :
    s = s' ∧ r = r' := by
  rw [Tree.quote_append, Tree.quote_append, List.cons.injEq] at h
  have hread := congrArg Tree.readString h.2
  simpa [Tree.readString_quote] using hread

/-! ## Numerals -/

/-- Whether a text is a sign, or nothing, with digits behind it. -/
structure IsSigned (sign digits : Text) : Prop where
  sign : sign = [] ∨ sign = ['-']
  ne_nil : digits ≠ []
  isDigit : ∀ c ∈ digits, c.isDigit = true

/-- Sign and digits end where a character that is no digit follows. -/
theorem IsSigned.append_inj {sign sign' digits digits' r r' : Text} (h : IsSigned sign digits)
    (h' : IsSigned sign' digits') (hr : r.Avoids Char.isDigit) (hr' : r'.Avoids Char.isDigit)
    (heq : sign ++ digits ++ r = sign' ++ digits' ++ r') :
    sign = sign' ∧ digits = digits' ∧ r = r' := by
  have hdigits : digits ++ r = digits' ++ r' → digits = digits' ∧ r = r' := by
    intro heq
    have htake := congrArg (List.takeWhile Char.isDigit) heq
    have hdrop := congrArg (List.dropWhile Char.isDigit) heq
    rw [Text.takeWhile_append_of_avoids h.isDigit hr,
      Text.takeWhile_append_of_avoids h'.isDigit hr'] at htake
    rw [Text.dropWhile_append_of_avoids h.isDigit hr,
      Text.dropWhile_append_of_avoids h'.isDigit hr'] at hdrop
    exact ⟨htake, hdrop⟩
  -- Digits do not start with a minus sign, so both texts have one or neither has.
  have hminus : ∀ {ds : Text} (r s : Text), ds ≠ [] → (∀ c ∈ ds, c.isDigit = true) →
      ds ++ r ≠ '-' :: s := by
    intro ds r s hne hds heq
    obtain ⟨d, ds, rfl⟩ := List.exists_cons_of_ne_nil hne
    obtain ⟨rfl, -⟩ := List.cons.inj heq
    exact absurd (hds _ List.mem_cons_self) (by decide)
  rcases h.sign with rfl | rfl <;> rcases h'.sign with rfl | rfl
  · exact ⟨rfl, hdigits heq⟩
  · exact absurd heq (hminus _ _ h.ne_nil h.isDigit)
  · exact absurd heq.symm (hminus _ _ h'.ne_nil h'.isDigit)
  · exact ⟨rfl, hdigits (List.cons.inj heq).2⟩

theorem ofNat_ne_nil (n : Nat) : Text.ofNat n ≠ [] := by
  obtain ⟨c, s, heq, -⟩ := Numeral.ofNat_eq_cons n
  simp [heq]

theorem printInt_eq (i : Int) : ∃ sign, IsSigned sign (Text.ofNat i.natAbs) ∧
    (sign = [] ↔ 0 ≤ i) ∧ printInt i = sign ++ Text.ofNat i.natAbs := by
  cases i with
  | ofNat n => exact ⟨[], ⟨.inl rfl, ofNat_ne_nil _, Numeral.isDigit_ofNat⟩, by simp, rfl⟩
  | negSucc n => exact ⟨['-'], ⟨.inr rfl, ofNat_ne_nil _, Numeral.isDigit_ofNat⟩, by simp, rfl⟩

theorem printExponent_eq_cons (i : Int) : ∃ s, printExponent i = 'e' :: s := by
  cases i <;> exact ⟨_, rfl⟩

/-- The text of a decimal has digits and behind them a point or an exponent. -/
theorem printDecimal_eq (d : Decimal.Shortest) : ∃ digits c more,
    printDecimal d = digits ++ c :: more ∧ digits ≠ [] ∧ (∀ c ∈ digits, c.isDigit = true) ∧
      (c = '.' ∨ c = 'e') := by
  have hne := ofNat_ne_nil d.digits
  have hdigit : ∀ c ∈ Text.ofNat d.digits, c.isDigit = true := Numeral.isDigit_ofNat
  simp only [printDecimal]
  split
  · refine ⟨Text.ofNat d.digits ++ List.replicate d.exponent.toNat '0', '.', ['0'], rfl,
      by simp [hne], ?_, .inl rfl⟩
    intro c hc
    rcases List.mem_append.1 hc with hc | hc
    · exact hdigit c hc
    · rw [List.eq_of_mem_replicate hc]; decide
  · split
    · next hpoint =>
      simp only [Bool.and_eq_true, decide_eq_true_eq] at hpoint
      refine ⟨_, '.', _, rfl, ?_, fun c hc => hdigit c (List.mem_of_mem_take hc), .inl rfl⟩
      simp only [ne_eq, List.take_eq_nil_iff, hne, or_false]
      omega
    · split
      · exact ⟨['0'], '.', _, rfl, by simp, List.forall_mem_singleton.2 rfl, .inl rfl⟩
      · -- One digit, a fraction if there are more, and the exponent.
        obtain ⟨s, hs⟩ := printExponent_eq_cons ((Text.ofNat d.digits).length + d.exponent - 1)
        have htake : (Text.ofNat d.digits).take 1 ≠ [] := by simp [hne]
        have htakes : ∀ c ∈ (Text.ofNat d.digits).take 1, c.isDigit = true := fun c hc =>
          hdigit c (List.mem_of_mem_take hc)
        rw [hs]
        split
        · exact ⟨_, 'e', s, by simp, htake, htakes, .inr rfl⟩
        · exact ⟨_, '.', _, by rw [List.append_assoc, List.cons_append], htake, htakes, .inl rfl⟩

theorem printFloat_eq (bits : UInt64) : ∃ sign digits c more, IsSigned sign digits ∧
    (c = '.' ∨ c = 'e') ∧ printFloat bits = sign ++ digits ++ c :: more := by
  have hsign : ∀ b : Prop, [Decidable b] →
      (if b then [] else ['-'] : Text) = [] ∨ (if b then [] else ['-'] : Text) = ['-'] := by
    intro b _
    split <;> simp
  simp only [printFloat]
  split
  · exact ⟨_, ['0'], '.', ['0'], ⟨hsign _, by simp, List.forall_mem_singleton.2 rfl⟩, .inl rfl,
      (List.append_assoc _ ['0'] ['.', '0']).symm⟩
  · obtain ⟨digits, c, more, heq, hne, hdigit, hc⟩ := printDecimal_eq
      (Decimal.shortest (.ofBits (bits.toNat % 0x8000000000000000)))
    exact ⟨_, digits, c, more, ⟨hsign _, hne, hdigit⟩, hc, by rw [heq, List.append_assoc]⟩

/-- The text of a whole number is that of no other number. -/
theorem printInt_append_inj {i : Int} {n : Number} {r r' : Text}
    (hr : r.Avoids Numeral.isPart) (hr' : r'.Avoids Numeral.isPart)
    (h : printInt i ++ r = printNumber n ++ r') : Number.int i = n ∧ r = r' := by
  obtain ⟨sign, hsigned, hsign, heq⟩ := printInt_eq i
  have hdigit := Numeral.avoids_isDigit hr
  cases n with
  | int j =>
    obtain ⟨sign', hsigned', hsign', heq'⟩ := printInt_eq j
    rw [printNumber, heq, heq'] at h
    obtain ⟨rfl, hdigits, rfl⟩ :=
      hsigned.append_inj hsigned' hdigit (Numeral.avoids_isDigit hr') h
    have habs : i.natAbs = j.natAbs := by
      have hof := congrArg (Nat.ofDigitChars 10 · 0) hdigits
      simpa only [Text.ofNat, Nat.ofDigitChars_ten_toDigits] using hof
    have hnonneg : 0 ≤ i ↔ 0 ≤ j := hsign.symm.trans hsign'
    exact ⟨by congr 1; omega, rfl⟩
  | float bits =>
    obtain ⟨sign', digits, c, more, hsigned', hc, heq'⟩ := printFloat_eq bits
    have hpoint : Text.Avoids Char.isDigit (c :: (more ++ r')) := by
      rw [Text.avoids_cons]
      rcases hc with rfl | rfl <;> decide
    rw [printNumber, heq, heq', List.append_assoc (sign' ++ digits), List.cons_append] at h
    obtain ⟨-, -, rfl⟩ := hsigned.append_inj hsigned' hdigit hpoint h
    rw [Text.avoids_cons] at hr
    rcases hc with rfl | rfl <;> exact absurd hr (by decide)

/-! ## Values -/

/-- The first character of the text of a value. Numbers are taken together, and so
    are truth values. -/
def lead : Json → Char
  | .null => 'n'
  | .bool _ => 't'
  | .num _ => '0'
  | .str _ => '\x22'
  | .arr _ => '['
  | .obj _ => '\x7b'

def leadOf (c : Char) : Char :=
  if c.isDigit || c == '-' then '0' else if c == 'f' then 't' else c

theorem IsSigned.eq_cons {sign digits : Text} (h : IsSigned sign digits) :
    ∃ c s, sign ++ digits = c :: s ∧ leadOf c = '0' := by
  rcases h.sign with rfl | rfl
  · obtain ⟨d, ds, rfl⟩ := List.exists_cons_of_ne_nil h.ne_nil
    exact ⟨d, ds, rfl, by simp [leadOf, h.isDigit d List.mem_cons_self]⟩
  · exact ⟨'-', digits, rfl, rfl⟩

theorem print_eq_lead (v : Json) : ∃ c s, print v = c :: s ∧ leadOf c = v.lead := by
  cases v with
  | null => exact ⟨_, _, rfl, rfl⟩
  | bool b => cases b <;> exact ⟨_, _, rfl, rfl⟩
  | num n =>
    cases n with
    | int i =>
      obtain ⟨sign, hsigned, -, heq⟩ := printInt_eq i
      obtain ⟨c, s, hcons, hc⟩ := hsigned.eq_cons
      exact ⟨c, s, by rw [print, printNumber, heq, hcons], hc⟩
    | float bits =>
      obtain ⟨sign, digits, point, more, hsigned, -, heq⟩ := printFloat_eq bits
      obtain ⟨c, s, hcons, hc⟩ := hsigned.eq_cons
      exact ⟨c, s ++ point :: more, by rw [print, printNumber, heq, hcons, List.cons_append], hc⟩
  | str s => exact ⟨_, _, rfl, rfl⟩
  | arr items => cases items <;> exact ⟨_, _, rfl, rfl⟩
  | obj fields => cases fields <;> exact ⟨_, _, rfl, rfl⟩

theorem lead_eq_of_print {v w : Json} {r r' : Text} (h : print v ++ r = print w ++ r') :
    v.lead = w.lead := by
  obtain ⟨c, s, heq, hc⟩ := print_eq_lead v
  obtain ⟨c', s', heq', hc'⟩ := print_eq_lead w
  rw [heq, heq', List.cons_append, List.cons_append, List.cons.injEq] at h
  rw [← hc, ← hc', h.1]

/-- A value does not start like the end of an array. -/
theorem print_append_ne_bracket (v : Json) (r r' : Text) : print v ++ r ≠ ']' :: r' := by
  intro h
  obtain ⟨c, s, heq, hc⟩ := print_eq_lead v
  rw [heq, List.cons_append, List.cons.injEq] at h
  rw [h.1] at hc
  cases v <;> simp [leadOf, lead] at hc

/-- Whether no other value has a text that continues the text of this one. -/
def Unambiguous (v : Json) : Prop :=
  ∀ w r r', Text.Avoids Numeral.isPart r → Text.Avoids Numeral.isPart r' →
    print v ++ r = print w ++ r' → v = w ∧ r = r'

theorem avoids_printItems (vs : List Json) (r : Text) :
    Text.Avoids Numeral.isPart (printItems vs ++ r) := by
  cases vs <;> exact (Text.avoids_cons ..).2 (by decide)

theorem avoids_printFields (fields : Assoc Json) (r : Text) :
    Text.Avoids Numeral.isPart (printFields fields ++ r) := by
  cases fields <;> exact (Text.avoids_cons ..).2 (by decide)

theorem printItems_append_inj {vs ws : List Json} (hvs : ∀ v ∈ vs, Unambiguous v) {r r' : Text}
    (h : printItems vs ++ r = printItems ws ++ r') : vs = ws ∧ r = r' := by
  induction vs generalizing ws with
  | nil =>
    cases ws with
    | nil => simpa [printItems] using h
    | cons w ws => simp [printItems] at h
  | cons v vs ih =>
    rw [List.forall_mem_cons] at hvs
    cases ws with
    | nil => simp [printItems] at h
    | cons w ws =>
      simp only [printItems, List.cons_append, List.append_assoc, List.cons.injEq, true_and] at h
      obtain ⟨rfl, htail⟩ := hvs.1 w _ _ (avoids_printItems vs r) (avoids_printItems ws r') h
      obtain ⟨rfl, rfl⟩ := ih hvs.2 htail
      exact ⟨rfl, rfl⟩

/-- A field is told apart by its key, its value and what follows. -/
theorem printField_append_inj {key key' : Text} {v v' : Json} (hv : Unambiguous v)
    {fields fields' : Assoc Json} {r r' : Text}
    (h : quote key ++ (':' :: (print v ++ (printFields fields ++ r))) =
      quote key' ++ (':' :: (print v' ++ (printFields fields' ++ r')))) :
    key = key' ∧ v = v' ∧ printFields fields ++ r = printFields fields' ++ r' := by
  obtain ⟨hkey, hvalue⟩ := quote_append_inj h
  exact ⟨hkey, hv v' _ _ (avoids_printFields fields r) (avoids_printFields fields' r')
    (List.cons.inj hvalue).2⟩

theorem printFields_append_inj {fields fields' : Assoc Json}
    (hfields : ∀ f ∈ fields, Unambiguous f.2) {r r' : Text}
    (h : printFields fields ++ r = printFields fields' ++ r') : fields = fields' ∧ r = r' := by
  induction fields generalizing fields' with
  | nil =>
    cases fields' with
    | nil => simpa [printFields] using h
    | cons f' fields' => simp [printFields] at h
  | cons f fields ih =>
    rw [List.forall_mem_cons] at hfields
    cases fields' with
    | nil => simp [printFields] at h
    | cons f' fields' =>
      simp only [printFields, List.cons_append, List.append_assoc, List.cons.injEq, true_and] at h
      obtain ⟨hkey, hvalue, htail⟩ := printField_append_inj hfields.1 h
      obtain ⟨rfl, rfl⟩ := ih hfields.2 htail
      exact ⟨by rw [Prod.ext hkey hvalue], rfl⟩

theorem unambiguous_null : Unambiguous .null := by
  intro w r r' _ _ h
  have hlead := lead_eq_of_print h
  cases w with
  | null => simpa [print] using h
  | _ => simp [lead] at hlead

theorem unambiguous_bool (b : Bool) : Unambiguous (.bool b) := by
  intro w r r' _ _ h
  have hlead := lead_eq_of_print h
  cases w with
  | bool b' => cases b <;> cases b' <;> simp_all [print]
  | _ => simp [lead] at hlead

theorem unambiguous_int (i : Int) : Unambiguous (.num (.int i)) := by
  intro w r r' hr hr' h
  have hlead := lead_eq_of_print h
  cases w with
  | num n =>
    obtain ⟨rfl, hrest⟩ := printInt_append_inj hr hr' h
    exact ⟨rfl, hrest⟩
  | _ => simp [lead] at hlead

theorem unambiguous_str (s : Text) : Unambiguous (.str s) := by
  intro w r r' _ _ h
  have hlead := lead_eq_of_print h
  cases w with
  | str s' =>
    obtain ⟨rfl, hrest⟩ := quote_append_inj h
    exact ⟨rfl, hrest⟩
  | _ => simp [lead] at hlead

theorem unambiguous_arr {items : List Json} (hitems : ∀ v ∈ items, Unambiguous v) :
    Unambiguous (.arr items) := by
  intro w r r' _ _ h
  have hlead := lead_eq_of_print h
  cases w with
  | arr items' =>
    cases items with
    | nil =>
      cases items' with
      | nil => simpa [print] using h
      | cons w ws =>
        simp only [print, List.cons_append, List.nil_append, List.append_assoc, List.cons.injEq,
          true_and] at h
        exact absurd h.symm (print_append_ne_bracket _ _ _)
    | cons v vs =>
      cases items' with
      | nil =>
        simp only [print, List.cons_append, List.nil_append, List.append_assoc, List.cons.injEq,
          true_and] at h
        exact absurd h (print_append_ne_bracket _ _ _)
      | cons w ws =>
        -- All items stand behind the bracket as later ones stand behind a comma.
        have hprinted : printItems (v :: vs) ++ r = printItems (w :: ws) ++ r' := by
          simpa [print, printItems] using h
        obtain ⟨heq, hrest⟩ := printItems_append_inj hitems hprinted
        exact ⟨by rw [heq], hrest⟩
  | _ => simp [lead] at hlead

theorem unambiguous_obj {fields : Assoc Json} (hfields : ∀ f ∈ fields, Unambiguous f.2) :
    Unambiguous (.obj fields) := by
  intro w r r' _ _ h
  have hlead := lead_eq_of_print h
  cases w with
  | obj fields' =>
    cases fields with
    | nil =>
      cases fields' with
      | nil => simpa [print] using h
      | cons f' fields' => simp [print, quote] at h
    | cons f fields =>
      cases fields' with
      | nil => simp [print, quote] at h
      | cons f' fields' =>
        have hprinted : printFields (f :: fields) ++ r = printFields (f' :: fields') ++ r' := by
          simpa [print, printFields] using h
        obtain ⟨heq, hrest⟩ := printFields_append_inj hfields hprinted
        exact ⟨by rw [heq], hrest⟩
  | _ => simp [lead] at hlead

theorem Whole.unambiguous {p : Int → Prop} {v : Json} (h : Whole p v) : Unambiguous v := by
  induction h with
  | null => exact unambiguous_null
  | bool b => exact unambiguous_bool b
  | int _ => exact unambiguous_int _
  | str s => exact unambiguous_str s
  | arr _ ih => exact unambiguous_arr ih
  | obj _ ih => exact unambiguous_obj ih

/-- Of two values with one text, one without floating-point numbers is the other. -/
theorem print_inj {p : Int → Prop} {v w : Json} (hv : Whole p v) (h : print v = print w) :
    v = w :=
  (hv.unambiguous w [] [] (Text.avoids_nil _) (Text.avoids_nil _) (by rw [h])).1

end BanglaSource.Json
