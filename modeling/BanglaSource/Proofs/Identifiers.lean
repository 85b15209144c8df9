-- SUMMARY: The identifier of every text is valid in the target language, never reserved, and its own identifier.
import BanglaSource.Proofs.Characters
import BanglaSource.Proofs.ClusterUnits
import BanglaSource.Identifier

/-!
# Identifiers are valid and free

Every route to an identifier keeps to the characters of identifiers, and ends in
a guard or in a joint with an underscore. The guard repairs what characters alone
cannot exclude: an empty spelling, a digit in front, a reserved word. No reserved
word holds an underscore, so whatever the guard adds or the joint inserts leads
away from them all. An identifier with nothing left to repair stays as it is.
-/
namespace BanglaSource.Identifier

/-! ## Characters -/

theorem isPart_of_isStart {c : Char} (h : isStart c = true) : isPart c = true := by
  grind [isStart, isPart, Char.isAlphanum]

theorem isStart_of_isPart {c : Char} (h : isPart c = true) (hdigit : c.isDigit = false) :
    isStart c = true := by
  simpa [isStart, isPart, Char.isAlphanum, hdigit] using h

theorem isWordStart_of_isStart {c : Char} (h : isStart c = true) :
    Script.isWordStart c = true := by
  grind [isStart, Script.isWordStart]

theorem isWordContinue_of_isPart {c : Char} (h : isPart c = true) :
    Script.isWordContinue c = true := by
  grind [isPart, Char.isAlphanum, Script.isWordContinue, Script.isWordStart, Script.isAnyDigit]

theorem not_isBangla_of_isPart {c : Char} (h : isPart c = true) : Script.isBangla c = false := by
  rw [← Bool.not_eq_true]
  simp only [isPart, Char.isAlphanum, isAlpha_iff, isDigit_iff, Script.isBangla, Bool.or_eq_true,
    Bool.and_eq_true, decide_eq_true_eq, beq_iff_eq, ← Char.toNat_inj, Char.reduceToNat] at *
  omega

theorem not_hasBangla_of_isPart {s : Text} (h : ∀ c ∈ s, isPart c = true) :
    Script.hasBangla s = false := by
  simp only [Script.hasBangla, List.any_eq_false, Bool.not_eq_true]
  intro c hc
  exact not_isBangla_of_isPart (h c hc)

theorem isValid_iff (s : Text) :
    isValid s = true ↔ ∃ c t, s = c :: t ∧ isStart c = true ∧ ∀ d ∈ t, isPart d = true := by
  cases s <;> simp [isValid, and_assoc]

theorem isPart_of_isValid {s : Text} (h : isValid s = true) : ∀ c ∈ s, isPart c = true := by
  obtain ⟨c, t, rfl, hc, ht⟩ := (isValid_iff s).1 h
  simpa using ⟨isPart_of_isStart hc, ht⟩

/-! ## Reserved words -/

/-- No reserved word holds an underscore. -/
theorem not_isReserved_of_mem {s : Text} (h : '_' ∈ s) : Reserved.isReserved s = false := by
  rw [← Bool.not_eq_true]
  intro hreserved
  have htable : ∀ w ∈ Reserved.table, '_' ∉ w := by decide
  have hmem : s.map Char.toLower ∈ Reserved.table := by simpa [Reserved.isReserved] using hreserved
  exact htable _ hmem (List.mem_map.2 ⟨'_', h, by decide⟩)

/-- A spelling in the characters of identifiers is guarded into a valid one. -/
theorem isValid_guard {s : Text} (h : ∀ c ∈ s, isPart c = true) : isValid (guard s) = true := by
  unfold guard
  by_cases hreserved : Reserved.isReserved s = true
  · have hs : ∀ d ∈ 'n' :: '_' :: s, isPart d = true := by
      simpa using ⟨by decide, by decide, h⟩
    simp only [hreserved, if_true, isValid_iff]
    exact ⟨'b', 'n' :: '_' :: s, rfl, by decide, hs⟩
  · simp only [hreserved, Bool.false_eq_true, if_false]
    cases s with
    | nil => decide
    | cons c t =>
      have hc := h c List.mem_cons_self
      have ht : ∀ d ∈ t, isPart d = true := fun d hd => h d (List.mem_cons_of_mem _ hd)
      by_cases hdigit : c.isDigit = true
      · simp only [hdigit, if_true, isValid_iff]
        exact ⟨'_', c :: t, rfl, by decide, h⟩
      · simp only [hdigit, Bool.false_eq_true, if_false, isValid_iff]
        exact ⟨c, t, rfl, isStart_of_isPart hc (by simpa using hdigit), ht⟩

theorem not_isReserved_guard (s : Text) : Reserved.isReserved (guard s) = false := by
  unfold guard
  by_cases hreserved : Reserved.isReserved s = true
  · have hmark : '_' ∈ reservedMark ++ s := by simp [reservedMark]
    simpa [hreserved, reservedMark] using not_isReserved_of_mem hmark
  · simp only [hreserved, Bool.false_eq_true, if_false]
    cases s with
    | nil => exact not_isReserved_of_mem (by decide)
    | cons c t =>
      by_cases hdigit : c.isDigit = true
      · simpa [hdigit] using not_isReserved_of_mem (s := '_' :: c :: t) (by simp)
      · simpa [hdigit] using hreserved

/-! ## Spellings -/

theorem isPart_of_fragment {c : Char} {latin : Text} (h : Grapheme.fragment? c = some latin) :
    ∀ d ∈ latin, isPart d = true := by
  have htable : ∀ p ∈ Grapheme.table, p.2.all isPart = true := by decide
  obtain ⟨before, after, heq, -⟩ := List.lookup_eq_some_iff.1 h
  exact List.all_eq_true.1 (htable (c, latin) (by simp [heq]))

theorem isPart_of_vocabulary {word latin : Text} (h : Vocabulary.find? word = some latin) :
    ∀ d ∈ latin, isPart d = true := by
  have htable : ∀ p ∈ Vocabulary.table, p.2.all isPart = true := by decide +kernel
  obtain ⟨before, after, heq, -⟩ := List.lookup_eq_some_iff.1 h
  have hmem : (Script.canonicalize word, latin) ∈ Vocabulary.index := by simp [heq]
  obtain ⟨⟨w, l⟩, hrow, hpair⟩ := List.mem_map.1 hmem
  obtain ⟨-, rfl⟩ := Prod.mk.injEq .. ▸ hpair
  exact List.all_eq_true.1 (htable _ hrow)

theorem isPart_spellChar (c : Char) : ∀ d ∈ spellChar c, isPart d = true := by
  unfold spellChar
  split
  · next h => simpa using h
  · cases h : Grapheme.fragment? c with
    | none => simp
    | some latin => exact isPart_of_fragment h

theorem isPart_fill {s : Text} (h : ∀ c ∈ s, isPart c = true) :
    ∀ c ∈ Cluster.fill s, isPart c = true := by
  intro c hc
  rcases Cluster.mem_fill hc with rfl | hmem
  · decide
  · exact h c hmem

theorem isPart_spell (word : Text) : ∀ c ∈ spell word, isPart c = true := by
  apply isPart_fill
  intro c hc
  obtain ⟨d, -, hd⟩ := List.mem_flatMap.1 hc
  exact isPart_spellChar d c hd

/-! ## Identifiers -/

/-- What every identifier is: valid and not reserved. -/
def IsFree (s : Text) : Prop :=
  isValid s = true ∧ Reserved.isReserved s = false

theorem isFree_guard {s : Text} (h : ∀ c ∈ s, isPart c = true) : IsFree (guard s) :=
  ⟨isValid_guard h, not_isReserved_guard s⟩

theorem isFree_ofForeign (word : Text) : IsFree (ofForeign word) := by
  refine isFree_guard ?_
  cases h : Vocabulary.find? (Script.canonicalize (Text.trim word)) with
  | none => exact isPart_spell _
  | some latin => exact isPart_of_vocabulary h

theorem isFree_ofWord (word : Text) : IsFree (ofWord word) := by
  unfold ofWord
  split
  · next h => exact isFree_guard (isPart_of_isValid h)
  · exact isFree_ofForeign word

/-- Valid parts joined by underscores are valid. -/
theorem isValid_intercalate {w : Text} {ws : List Text}
    (h : ∀ v ∈ w :: ws, isValid v = true) : isValid (List.intercalate ['_'] (w :: ws)) = true := by
  induction ws generalizing w with
  | nil => simpa using h
  | cons v ws ih =>
    have hrest := ih fun u hu => h u (List.mem_cons_of_mem _ hu)
    obtain ⟨c, t, rfl, hc, ht⟩ := (isValid_iff w).1 (h w List.mem_cons_self)
    rw [List.intercalate_cons_cons, isValid_iff]
    refine ⟨c, t ++ ['_'] ++ List.intercalate ['_'] (v :: ws), rfl, hc, ?_⟩
    simp only [List.mem_append, or_imp, forall_and]
    exact ⟨⟨ht, List.all_eq_true.1 (by decide)⟩, isPart_of_isValid hrest⟩

/-- The identifier of a text is valid and not reserved. -/
theorem isFree_ofText (s : Text) : IsFree (ofText s) := by
  unfold ofText
  split
  · next h => exact isFree_guard (isPart_of_isValid h)
  · split
    · next w v ws _ =>
      constructor
      · apply isValid_intercalate
        intro u hu
        obtain ⟨x, -, rfl⟩ := List.mem_map (l := w :: v :: ws).1 hu
        exact (isFree_ofWord x).1
      · exact not_isReserved_of_mem (by simp [List.intercalate_cons_cons])
    · exact isFree_ofForeign s

/-! ## Stability -/

theorem not_isDigit_of_isStart {c : Char} (h : isStart c = true) : c.isDigit = false := by
  rw [← Bool.not_eq_true, isDigit_iff]
  simp only [isStart, isAlpha_iff, Bool.or_eq_true, beq_iff_eq, ← Char.toNat_inj,
    Char.reduceToNat] at h
  omega

/-- The guard has nothing to repair in an identifier that is valid and not reserved. -/
theorem guard_of_isFree {s : Text} (h : IsFree s) : guard s = s := by
  obtain ⟨c, t, rfl, hc, -⟩ := (isValid_iff s).1 h.1
  simp [guard, h.2, not_isDigit_of_isStart hc]

theorem ofText_of_isFree {s : Text} (h : IsFree s) : ofText s = s := by
  rw [ofText, if_pos h.1, guard_of_isFree h]

/-- Reserved words are told apart by their letters, not by case. -/
theorem isReserved_eq_false_iff (s : Text) :
    Reserved.isReserved s = false ↔
      ∀ w ∈ Reserved.table, w.map Char.toLower ≠ s.map Char.toLower := by
  have hlower : ∀ w ∈ Reserved.table, w.map Char.toLower = w := by decide
  rw [Reserved.isReserved, List.contains_eq_mem, decide_eq_false_iff_not]
  constructor
  · intro hs w hw heq
    rw [hlower w hw] at heq
    exact hs (heq ▸ hw)
  · intro hs hmem
    exact hs _ hmem (hlower _ hmem)

/-- Every text has an identifier: a letter, an underscore or a dollar sign, then
    such characters and digits. It is no reserved word in any case of its letters,
    and it is its own identifier. -/
theorem ofText_valid_unreserved_fixed (s : Text) :
    (∃ first rest, ofText s = first :: rest ∧
      (first.isAlpha = true ∨ first = '_' ∨ first = '$') ∧
      ∀ c ∈ rest, c.isAlphanum = true ∨ c = '_' ∨ c = '$') ∧
    (∀ w ∈ Reserved.table, w.map Char.toLower ≠ (ofText s).map Char.toLower) ∧
    ofText (ofText s) = ofText s := by
  have hfree := isFree_ofText s
  refine ⟨?_, (isReserved_eq_false_iff _).1 hfree.2, ofText_of_isFree hfree⟩
  obtain ⟨first, rest, heq, hfirst, hrest⟩ := (isValid_iff _).1 hfree.1
  refine ⟨first, rest, heq, by simpa [isStart, or_assoc] using hfirst, ?_⟩
  intro c hc
  simpa [isPart, or_assoc] using hrest c hc

end BanglaSource.Identifier
