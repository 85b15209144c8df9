-- SUMMARY: Filling puts its vowels between the fragments of a word, except for fragments `ng` without a partner.
import BanglaSource.Identifier.Grapheme
import BanglaSource.Proofs.ClusterUnits
import Mathlib.Algebra.Group.Nat.Even

/-!
# Filling and fragments

A word is spelled fragment by fragment, and filling sees only the letters. Behind
the first letter of a fragment no unit starts, so a vowel between two units falls
between two fragments. The fragment `ng` is the exception: where it is left without
a partner, its own letters are the pair. Units in a row are paired off from the
left, so this happens behind an even number of them, with no consonant following.
-/
namespace BanglaSource.Cluster

/-! ## Spacing -/

/-- Whether a text is made of pieces in order, with nothing or one `a` between
    neighbours. -/
inductive Spaced : List Text → Text → Prop
  | nil : Spaced [] []
  | single (f : Text) : Spaced [f] f
  | cons (f : Text) {gap g s : Text} {fs : List Text} (hgap : gap = [] ∨ gap = ['a'])
      (h : Spaced (g :: fs) s) : Spaced (f :: g :: fs) (f ++ (gap ++ s))

theorem Spaced.extend {f s : Text} {fs : List Text} (h : Spaced (f :: fs) s) (t : Text) :
    Spaced ((t ++ f) :: fs) (t ++ s) := by
  cases h with
  | single => exact .single _
  | cons _ hgap h =>
    rw [← List.append_assoc]
    exact .cons _ hgap h

/-- Pieces in front of others, with one gap between. -/
theorem Spaced.append {f s gap : Text} {fs before : List Text} (h : Spaced (f :: fs) s)
    (hgap : gap = [] ∨ gap = ['a']) (hbefore : before ≠ []) :
    Spaced (before ++ f :: fs) (before.flatten ++ (gap ++ s)) := by
  induction before with
  | nil => exact absurd rfl hbefore
  | cons g before ih =>
    cases before with
    | nil => simpa using Spaced.cons g hgap h
    | cons g' before => simpa using Spaced.cons g (.inl rfl) (ih (by simp))

theorem Spaced.prepend {f s : Text} {fs : List Text} (h : Spaced (f :: fs) s)
    (before : List Text) : Spaced (before ++ f :: fs) (before.flatten ++ s) := by
  cases before with
  | nil => exact h
  | cons g before => exact h.append (.inl rfl) (by simp)

theorem spaced_flatten (fs : List Text) : Spaced fs fs.flatten := by
  rcases List.eq_nil_or_concat fs with rfl | ⟨before, f, rfl⟩
  · exact .nil
  · simpa using (Spaced.single f).prepend before

/-! ## Pieces -/

/-- Whether a text has no consonant behind its first letter, or is `ng`. -/
def IsPiece (f : Text) : Prop :=
  f = nasalUnit ∨ ∀ c ∈ f.tail, isConsonant c = false

/-- The end of a piece is a piece, and not `ng`. -/
theorem IsPiece.end {f inside rest : Text} {c : Char} (h : IsPiece f)
    (hf : f = inside ++ c :: rest) : IsPiece rest ∧ rest ≠ nasalUnit := by
  have hrest : f = nasalUnit → rest = [] ∨ rest = ['g'] := by
    rintro rfl
    rcases inside with _ | ⟨a, _ | ⟨b, inside⟩⟩ <;> simp_all [nasalUnit]
  have htail : (∀ d ∈ f.tail, isConsonant d = false) → ∀ d ∈ rest, isConsonant d = false := by
    intro hf' d hd
    refine hf' d ?_
    cases inside <;> simp_all
  rcases h with hnasal | hplain
  · rcases hrest hnasal with rfl | rfl <;> simp [IsPiece, nasalUnit]
  · refine ⟨.inr fun d hd => htail hplain d (List.mem_of_mem_tail hd), ?_⟩
    rintro rfl
    exact absurd (htail hplain 'n' (by simp [nasalUnit])) (by decide)

/-- What is left of pieces `fs` behind the letters `u`. -/
structure Follows (u : Text) (gs fs : List Text) : Prop where
  isPiece : ∀ g ∈ gs, IsPiece g
  spaced : ∀ s, Spaced gs s → Spaced fs (u ++ s)
  nasal : ∀ before after, gs = before ++ nasalUnit :: after →
    ∃ front, fs = front ++ nasalUnit :: after ∧ front.flatten = u ++ before.flatten

theorem Follows.trans {u v : Text} {fs gs hs : List Text} (hu : Follows u gs fs)
    (hv : Follows v hs gs) : Follows (u ++ v) hs fs where
  isPiece := hv.isPiece
  spaced s h := by
    rw [List.append_assoc]
    exact hu.spaced _ (hv.spaced s h)
  nasal before after h := by
    obtain ⟨middle, hmiddle, hv⟩ := hv.nasal before after h
    obtain ⟨front, hfront, hu⟩ := hu.nasal middle after hmiddle
    exact ⟨front, hfront, by rw [hu, hv, List.append_assoc]⟩

theorem exists_follows {fs : List Text} {u s : Text} (hfs : ∀ f ∈ fs, IsPiece f) (hu : u ≠ [])
    (h : fs.flatten = u ++ s) : ∃ gs, gs.flatten = s ∧ Follows u gs fs := by
  obtain ⟨u, c, rfl⟩ := (List.eq_nil_or_concat u).resolve_left hu
  have hplace : fs.flatMap id = u ++ c :: s := by simpa using h
  obtain ⟨ys, f, zs, inside, rest, rfl, hf, rfl, rfl⟩ := exists_piece_of_flatMap hplace
  have hf : f = inside ++ c :: rest := hf
  obtain ⟨hrest, hnasal⟩ := (hfs f (by simp)).end hf
  refine ⟨rest :: zs, by simp, ?_, ?_, ?_⟩
  · simp only [List.mem_cons, forall_eq_or_imp]
    exact ⟨hrest, fun g hg => hfs g (by simp [hg])⟩
  · intro s hs
    have hspaced := (hs.extend (inside ++ [c])).prepend ys
    simpa [hf] using hspaced
  · intro before after heq
    cases before with
    | nil => exact absurd (List.cons.inj heq).1 hnasal
    | cons g before =>
      obtain ⟨rfl, rfl⟩ := List.cons.inj heq
      exact ⟨ys ++ f :: before, by simp, by simp [hf]⟩

/-- In front of a consonant two pieces meet, unless the consonant is the second letter
    of a piece `ng`. -/
theorem exists_follows_gap {fs : List Text} {u s : Text} {d : Char} (hfs : ∀ f ∈ fs, IsPiece f)
    (hu : u ≠ []) (hd : isConsonant d = true) (h : fs.flatten = u ++ d :: s) :
    (∃ gs, gs.flatten = d :: s ∧ Follows u gs fs ∧
      ∀ t, Spaced gs t → Spaced fs (u ++ 'a' :: t)) ∨
    ∃ before after, fs = before ++ nasalUnit :: after ∧ u = before.flatten ++ ['n'] ∧ d = 'g' ∧
      s = after.flatten := by
  have hplace : fs.flatMap id = u ++ d :: s := by simpa using h
  obtain ⟨ys, f, zs, inside, rest, rfl, hf, rfl, rfl⟩ := exists_piece_of_flatMap hplace
  have hf : f = inside ++ d :: rest := hf
  cases inside with
  | nil =>
    have hys : ys ≠ [] := by
      rintro rfl
      exact hu rfl
    refine .inl ⟨f :: zs, by simp [hf], ⟨fun g hg => hfs g (by simp [hg]), ?_, ?_⟩, ?_⟩
    · intro t ht
      simpa using ht.prepend ys
    · intro before after heq
      exact ⟨ys ++ before, by simp [heq], by simp⟩
    · intro t ht
      simpa using ht.append (.inr rfl) hys
  | cons c inside =>
    have hnasal : f = nasalUnit := by
      refine (hfs f (by simp)).resolve_right fun hplain => ?_
      rw [hplain d (by simp [hf])] at hd
      cases hd
    rw [hnasal] at hf
    cases inside with
    | nil =>
      obtain ⟨rfl, rfl, rfl⟩ : 'n' = c ∧ 'g' = d ∧ rest = [] := by simpa [nasalUnit] using hf
      exact .inr ⟨ys, zs, by rw [hnasal], by simp, rfl, by simp⟩
    | cons _ inside => simp [nasalUnit] at hf

/-! ## Units in a row -/

/-- The number of units in a row at the end of a text, if `n` stand in front of it. -/
def trailingUnitsFrom (n : Nat) (s : Text) : Nat :=
  match _h : unit? s with
  | some cut => trailingUnitsFrom (n + 1) cut.rest
  | none =>
    match s with
    | [] => n
    | _ :: s => trailingUnitsFrom 0 s
termination_by s.length
decreasing_by
  · obtain ⟨hleads, happend⟩ := leads_of_unit? _h
    have hpos := List.length_pos_iff.2 hleads.1.ne_nil
    simp only [← happend, List.length_append]
    omega
  · simp

/-- The number of units in a row at the end of a text. -/
def trailingUnits (s : Text) : Nat :=
  trailingUnitsFrom 0 s

theorem trailingUnitsFrom_nil (n : Nat) : trailingUnitsFrom n [] = n := by
  rw [trailingUnitsFrom]
  rfl

theorem trailingUnitsFrom_cons {c : Char} (hc : isConsonant c = false) (n : Nat) (s : Text) :
    trailingUnitsFrom n (c :: s) = trailingUnits s := by
  have hunit : unit? (c :: s) = none := (unit?_eq_none_iff _).2 ((Text.avoids_cons _ c s).2 hc)
  rw [trailingUnitsFrom]
  split <;> simp_all [trailingUnits]

theorem trailingUnitsFrom_append {u s : Text} (hu : Leads u s) (n : Nat) :
    trailingUnitsFrom n (u ++ s) = trailingUnitsFrom (n + 1) s := by
  have hunit := hu.unit?_eq
  rw [trailingUnitsFrom]
  split <;> simp_all

/-- A pair of units in front does not count. -/
theorem even_trailingUnitsFrom (n : Nat) (s : Text) :
    Even (trailingUnitsFrom (n + 2) s) ↔ Even (trailingUnitsFrom n s) := by
  fun_induction trailingUnitsFrom n s with
  | case1 n s cut hunit ih =>
    obtain ⟨hleads, happend⟩ := leads_of_unit? hunit
    rw [← happend, trailingUnitsFrom_append hleads]
    exact ih
  | case2 n =>
    rw [trailingUnitsFrom_nil, Nat.even_add]
    exact iff_true_right (by decide)
  | case3 n c s hunit ih =>
    have hc : isConsonant c = false := (Text.avoids_cons _ c s).1 ((unit?_eq_none_iff _).1 hunit)
    rw [trailingUnitsFrom_cons hc]
    rfl

/-! ## Fragments without a partner -/

/-- Whether some fragment `ng` has no partner: an even number of units in a row stands
    in front of it, and no consonant behind. -/
def LeavesNasal (fs : List Text) : Prop :=
  ∃ before after, fs = before ++ nasalUnit :: after ∧ Even (trailingUnits before.flatten) ∧
    Text.Avoids isConsonant after.flatten

/-- A fragment without a partner is one also behind letters that do not change the
    parity of the row in front of it. -/
theorem Follows.leavesNasal {u : Text} {fs gs : List Text} (hfollows : Follows u gs fs)
    (hrow : ∀ t r, gs.flatten = t ++ 'n' :: r → Even (trailingUnits t) →
      Even (trailingUnits (u ++ t))) (h : LeavesNasal gs) : LeavesNasal fs := by
  obtain ⟨before, after, rfl, heven, hafter⟩ := h
  obtain ⟨front, rfl, hfront⟩ := hfollows.nasal before after rfl
  refine ⟨front, after, rfl, ?_, hafter⟩
  rw [hfront]
  exact hrow before.flatten ('g' :: after.flatten) (by simp [nasalUnit]) heven

/-- A unit without a partner does not count for a later row. -/
theorem trailingUnits_lone {u s t r : Text} (hu : Leads u s) (hs : s.Avoids isConsonant)
    (h : s = t ++ 'n' :: r) : trailingUnits (u ++ t) = trailingUnits t := by
  cases t with
  | nil => simp [h, isConsonant] at hs
  | cons d t =>
    have hd : isConsonant d = false := by simpa [h] using hs
    have hleads : Leads u (d :: t) := (h ▸ hu).of_append
    rw [trailingUnits, trailingUnitsFrom_append hleads, trailingUnitsFrom_cons hd]
    exact (trailingUnitsFrom_cons hd 0 t).symm

/-- A pair of units does not count for the parity of a later row. -/
theorem even_trailingUnits_pair {u v s t r : Text} (hu : Leads u (v ++ s)) (hv : Leads v s)
    (h : s = t ++ r) : Even (trailingUnits (u ++ (v ++ t))) ↔ Even (trailingUnits t) := by
  subst h
  have hfirst : Leads u (v ++ t) := Leads.of_append (r := r) (by rwa [List.append_assoc])
  rw [trailingUnits, trailingUnitsFrom_append hfirst, trailingUnitsFrom_append hv.of_append,
    even_trailingUnitsFrom, trailingUnits]

/-- Without a fragment `ng` that has no partner, filling keeps the fragments whole. -/
theorem spaced_fill {fs : List Text} (hfs : ∀ f ∈ fs, IsPiece f) (h : ¬ LeavesNasal fs) :
    Spaced fs (fill fs.flatten) := by
  -- The induction is on the text as filling reads it. A step may end inside a fragment, so
  -- the fragments left over are those that follow what was read.
  generalize htext : fs.flatten = s
  induction s using fill_induction generalizing fs with
  | nil =>
    have hspaced := spaced_flatten fs
    rwa [htext, ← show fill [] = [] from by rw [fill]] at hspaced
  | other c s hc ih =>
    obtain ⟨gs, rfl, hfollows⟩ := exists_follows (u := [c]) hfs (by simp) htext
    rw [fill_cons hc]
    refine hfollows.spaced _ (ih hfollows.isPiece (fun hleaves => h ?_) rfl)
    refine hfollows.leavesNasal (fun t r _ heven => ?_) hleaves
    rwa [List.singleton_append, trailingUnits, trailingUnitsFrom_cons hc]
  | lone u s hu hnasal hs ih =>
    obtain ⟨gs, rfl, hfollows⟩ := exists_follows hfs hu.1.ne_nil htext
    rw [fill_lone hu hnasal hs]
    refine hfollows.spaced _ (ih hfollows.isPiece (fun hleaves => h ?_) rfl)
    refine hfollows.leavesNasal (fun t r heq heven => ?_) hleaves
    rwa [trailingUnits_lone hu hs heq]
  | nasal s hs ih =>
    rw [fill_nasal hs]
    rcases exists_follows_gap (u := ['n']) hfs (by simp) (by decide) htext with
      ⟨gs, hgs, hfollows, hgap⟩ | ⟨before, after, rfl, hbefore, -, rfl⟩
    · obtain ⟨hs', rfl, hfollows'⟩ := exists_follows (u := ['g']) hfollows.isPiece (by simp) hgs
      refine hgap _ (hfollows'.spaced _ (ih hfollows'.isPiece (fun hleaves => h ?_) rfl))
      refine (hfollows.trans hfollows').leavesNasal (fun t r heq heven => ?_) hleaves
      have hrow := trailingUnits_lone (leads_nasalUnit _) hs heq
      exact hrow.symm ▸ heven
    · -- The letters `n` and `g` are one fragment: it is without a partner.
      refine absurd ⟨before, after, rfl, ?_, hs⟩ h
      obtain hnil : before.flatten = [] := by simpa using hbefore
      rw [hnil, trailingUnits, trailingUnitsFrom_nil]
      exact Even.zero
  | pair u v s hu hv ih =>
    rw [fill_pair hu hv]
    obtain ⟨d, v, rfl, hd⟩ := hv.1.first
    rcases exists_follows_gap hfs hu.1.ne_nil hd htext with
      ⟨gs, hgs, hfollows, hgap⟩ | ⟨before, after, rfl, rfl, rfl, hafter⟩
    · obtain ⟨hs', rfl, hfollows'⟩ := exists_follows hfollows.isPiece hv.1.ne_nil hgs
      have hspaced := hgap _ (hfollows'.spaced _ (ih hfollows'.isPiece (fun hleaves => h ?_) rfl))
      · simpa using hspaced
      · refine (hfollows.trans hfollows').leavesNasal (fun t r heq heven => ?_) hleaves
        rw [List.append_assoc]
        exact (even_trailingUnits_pair hu hv heq).2 heven
    · exact absurd hu (not_leads_n _ _)

/-! ## Fragments that are taken apart -/

/-- The letters of a text that filling does not insert. -/
def letters (s : Text) : Text :=
  s.filter (· != 'a')

@[simp] theorem letters_append (s t : Text) : letters (s ++ t) = letters s ++ letters t :=
  List.filter_append ..

@[simp] theorem letters_vowel (s : Text) : letters ('a' :: s) = letters s :=
  rfl

/-- A letter that is not inserted has the same place in two texts if as many such
    letters stand in front of it. -/
theorem eq_of_letters {s t x y : Text} {c : Char} (hc : c ≠ 'a') (h : s ++ c :: x = t ++ c :: y)
    (hletters : letters s = letters t) : s = t := by
  have hnil : ∀ {s between x y : Text}, letters s = letters (s ++ between) →
      c :: x = between ++ c :: y → between = [] := by
    intro s between x y hletters h
    cases between with
    | nil => rfl
    | cons d between =>
      rw [List.cons_append, List.cons.injEq] at h
      simp [letters, ← h.1, hc] at hletters
  rcases List.append_eq_append_iff.1 h with ⟨between, rfl, hrest⟩ | ⟨between, rfl, hrest⟩
  · rw [hnil hletters hrest, List.append_nil]
  · rw [hnil hletters.symm hrest, List.append_nil]

/-- Pieces in front of another keep their letters. -/
theorem Spaced.exists_piece {before after : List Text} {f s : Text}
    (h : Spaced (before ++ f :: after) s) :
    ∃ left right, s = left ++ (f ++ right) ∧ letters left = letters before.flatten := by
  induction before generalizing s with
  | nil =>
    cases h with
    | single => exact ⟨[], [], by simp, rfl⟩
    | cons _ hgap h => exact ⟨[], _, rfl, rfl⟩
  | cons g before ih =>
    obtain ⟨g', fs, hfs⟩ : ∃ g' fs, before ++ f :: after = g' :: fs :=
      List.exists_cons_of_ne_nil (by simp)
    rw [List.cons_append, hfs] at h
    cases h with
    | cons _ hgap h =>
      rename_i gap s
      obtain ⟨left, right, rfl, hleft⟩ := ih (hfs ▸ h)
      have hnone : letters gap = [] := by rcases hgap with rfl | rfl <;> rfl
      exact ⟨g ++ (gap ++ left), right, by simp, by simp [hnone, hleft]⟩

/-- A fragment `ng` without a partner gets a vowel between its letters. -/
theorem fill_of_leavesNasal {s t : Text} (hs : Even (trailingUnits s)) (ht : t.Avoids isConsonant) :
    ∃ left, fill (s ++ 'n' :: 'g' :: t) = left ++ 'n' :: 'a' :: 'g' :: fill t ∧
      letters left = letters s := by
  generalize htext : s ++ 'n' :: 'g' :: t = text
  induction text using fill_induction generalizing s with
  | nil => simp at htext
  | other c r hc ih =>
    cases s with
    | nil =>
      obtain ⟨rfl, -⟩ := List.cons.inj htext
      exact absurd hc (by decide)
    | cons d s =>
      obtain ⟨rfl, hr⟩ := List.cons.inj htext
      rw [trailingUnits, trailingUnitsFrom_cons hc] at hs
      obtain ⟨left, hfill, hleft⟩ := ih hs hr
      refine ⟨[d] ++ left, by simp [fill_cons hc, hfill], ?_⟩
      rw [letters_append, hleft, ← letters_append, List.singleton_append]
  | lone u r hu hnasal hr ih =>
    by_cases hnil : s = []
    · subst hnil
      exact absurd ((leads_nasalUnit t).unique hu htext).1.symm hnasal
    · obtain ⟨s', rfl, hrest⟩ := hu.exists_append htext.symm hnil
      rw [trailingUnits_lone hu hr hrest] at hs
      obtain ⟨left, hfill, hleft⟩ := ih hs hrest.symm
      exact ⟨u ++ left, by simp [fill_lone hu hnasal hr, hfill], by simp [hleft]⟩
  | nasal r hr ih =>
    by_cases hnil : s = []
    · subst hnil
      obtain rfl : t = r := by simpa using htext
      exact ⟨[], fill_nasal hr, rfl⟩
    · have hu := leads_nasalUnit r
      obtain ⟨s', rfl, hrest⟩ := hu.exists_append htext.symm hnil
      rw [trailingUnits_lone hu hr hrest] at hs
      obtain ⟨left, hfill, hleft⟩ := ih hs hrest.symm
      refine ⟨['n', 'a', 'g'] ++ left, by simp [fill_nasal hr, hfill], ?_⟩
      rw [letters_append, letters_append, hleft]
      rfl
  | pair u v r hu hv ih =>
    by_cases hnil : s = []
    · subst hnil
      obtain ⟨-, rfl⟩ := (leads_nasalUnit t).unique hu htext
      exact absurd ht (hv.1.not_avoids r)
    · obtain ⟨s', rfl, hrest⟩ := hu.exists_append htext.symm hnil
      by_cases hnil' : s' = []
      · subst hnil'
        have halone : Leads u [] := Leads.of_append hu
        rw [trailingUnits, trailingUnitsFrom_append halone, trailingUnitsFrom_nil] at hs
        exact absurd hs (by decide)
      · obtain ⟨s'', rfl, hrest'⟩ := hv.exists_append hrest hnil'
        rw [even_trailingUnits_pair hu hv hrest'] at hs
        obtain ⟨left, hfill, hleft⟩ := ih hs hrest'.symm
        exact ⟨u ++ 'a' :: v ++ left, by simp [fill_pair hu hv, hfill], by simp [hleft]⟩

theorem not_spaced_fill {fs : List Text} (h : LeavesNasal fs) : ¬ Spaced fs (fill fs.flatten) := by
  obtain ⟨before, after, rfl, heven, hafter⟩ := h
  intro hspaced
  obtain ⟨left, right, heq, hleft⟩ := hspaced.exists_piece
  obtain ⟨left', heq', hleft'⟩ := fill_of_leavesNasal heven hafter
  have htexts : left ++ 'n' :: 'g' :: right = left' ++ 'n' :: 'a' :: 'g' :: fill after.flatten := by
    simpa [nasalUnit] using heq.symm.trans (by simpa [nasalUnit] using heq')
  obtain rfl := eq_of_letters (by decide) htexts (hleft.trans hleft'.symm)
  simp at htexts

/-! ## Fragments of words -/

theorem isPiece_of_fragment {c : Char} {f : Text} (h : Grapheme.fragment? c = some f) :
    IsPiece f := by
  have htable : (Grapheme.table.all fun p =>
      p.2 == nasalUnit || p.2.tail.all fun c => !isConsonant c) = true := by
    decide
  obtain ⟨before, after, heq, -⟩ := List.lookup_eq_some_iff.1 h
  have hrow := List.all_eq_true.1 htable (c, f) (by simp [heq])
  simpa [IsPiece] using hrow

/-- Filling keeps the fragments of a word whole and puts at most one `a` between
    neighbours, exactly if no fragment `ng` is without a partner. -/
theorem spaced_fill_fragments_iff (word : Text) (fragments : List Text)
    (h : word.map Grapheme.fragment? = fragments.map some) :
    Spaced fragments (fill fragments.flatten) ↔ ¬ LeavesNasal fragments := by
  have hpieces : ∀ f ∈ fragments, IsPiece f := by
    intro f hf
    have hmem : some f ∈ word.map Grapheme.fragment? := h ▸ List.mem_map_of_mem hf
    obtain ⟨c, -, hc⟩ := List.mem_map.1 hmem
    exact isPiece_of_fragment hc
  constructor
  · intro hspaced hleaves
    exact not_spaced_fill hleaves hspaced
  · exact spaced_fill hpieces

/-- The fragments of বাংলা. -/
def wholeFragments : List Text := [['b'], ['a'], nasalUnit, ['l'], ['a']]

/-- The fragments of সিংহ. -/
def splitFragments : List Text := [['s'], ['i'], nasalUnit, ['h']]

theorem spaced_fill_fragments_iff_anusvara :
    ("বাংলা".toList.map Grapheme.fragment? = wholeFragments.map some ∧
      Spaced wholeFragments (fill wholeFragments.flatten) ∧ ¬ LeavesNasal wholeFragments) ∧
    ("সিংহ".toList.map Grapheme.fragment? = splitFragments.map some ∧
      LeavesNasal splitFragments ∧ ¬ Spaced splitFragments (fill splitFragments.flatten)) := by
  have hwhole : "বাংলা".toList.map Grapheme.fragment? = wholeFragments.map some := by
    decide
  have hsplit : "সিংহ".toList.map Grapheme.fragment? = splitFragments.map some := by
    decide
  have hfill : fill wholeFragments.flatten = "bangala".toList := by cbv
  have hspaced : Spaced wholeFragments (fill wholeFragments.flatten) := by
    rw [hfill]
    exact .cons ['b'] (.inl rfl) (.cons ['a'] (.inl rfl) (.cons nasalUnit (.inr rfl)
      (.cons ['l'] (.inl rfl) (.single ['a']))))
  have hleaves : LeavesNasal splitFragments :=
    ⟨[['s'], ['i']], [['h']], rfl, ⟨0, by cbv⟩, (Text.avoids_cons ..).2 (by decide)⟩
  have hiff := spaced_fill_fragments_iff _ _ hsplit
  exact ⟨⟨hwhole, hspaced, (spaced_fill_fragments_iff _ _ hwhole).1 hspaced⟩, hsplit, hleaves,
    fun hspaced => hiff.1 hspaced hleaves⟩

/-- An anusvara behind a vowel at the end of a word is taken apart. -/
theorem spaced_fill_fragments_final :
    "ইং".toList.map Grapheme.fragment? = [some ['i'], some nasalUnit] ∧
      fill ['i', 'n', 'g'] = ['i', 'n', 'a', 'g'] ∧
      ¬ ∀ (word : Text) (fragments : List Text),
        word.map Grapheme.fragment? = fragments.map some →
        Spaced fragments (fill fragments.flatten) := by
  have hfragments : "ইং".toList.map Grapheme.fragment? = [some ['i'], some nasalUnit] := by
    decide
  have hfill : fill ['i', 'n', 'g'] = ['i', 'n', 'a', 'g'] := by cbv
  refine ⟨hfragments, hfill, fun hall => ?_⟩
  have hleaves : LeavesNasal [['i'], nasalUnit] :=
    ⟨[['i']], [], rfl, ⟨0, by cbv⟩, Text.avoids_nil _⟩
  exact not_spaced_fill hleaves (hall _ [['i'], nasalUnit] hfragments)

end BanglaSource.Cluster
