-- SUMMARY: Consonant units of a Latin spelling: the unit at a place is the longest one, and filling goes from unit to unit.
import BanglaSource.Identifier.Cluster
import BanglaSource.Proofs.Characters

/-!
# Consonant units

The candidates for a unit at one place are its prefixes that are units, and the
preferred one is the longest. Behind its first letter a unit has no consonant,
except for `ng`. So a unit without a consonant behind it has no partner and is
left alone, again except for `ng`: its two letters then make a pair of their own.
-/
namespace BanglaSource.Cluster

variable {s t u v : Text} {c : Char}

/-! ## Units -/

/-- The unit of two letters that are consonants on their own. -/
def nasalUnit : Text := ['n', 'g']

/-- The texts that count as one consonant. -/
def IsUnit (u : Text) : Prop :=
  u = ['c', 'h', 'h'] ∨ u = nasalUnit ∨ (∃ c, takesH c = true ∧ u = [c, 'h']) ∨
    ∃ c, isConsonant c = true ∧ u = [c]

theorem isConsonant_of_takesH (h : takesH c = true) : isConsonant c = true := by
  simp only [takesH, isConsonant, List.contains_eq_mem, decide_eq_true_eq, List.mem_cons,
    List.not_mem_nil, or_false] at h ⊢
  grind

theorem isUnit_nasalUnit : IsUnit nasalUnit :=
  .inr (.inl rfl)

theorem isUnit_singleton (h : isConsonant c = true) : IsUnit [c] :=
  .inr (.inr (.inr ⟨c, h, rfl⟩))

/-- A unit starts with a consonant. -/
theorem IsUnit.first (h : IsUnit u) : ∃ c t, u = c :: t ∧ isConsonant c = true := by
  rcases h with rfl | rfl | ⟨c, hc, rfl⟩ | ⟨c, hc, rfl⟩
  · exact ⟨_, _, rfl, by decide⟩
  · exact ⟨_, _, rfl, by decide⟩
  · exact ⟨_, _, rfl, isConsonant_of_takesH hc⟩
  · exact ⟨_, _, rfl, hc⟩

theorem IsUnit.ne_nil (h : IsUnit u) : u ≠ [] := by
  obtain ⟨c, t, rfl, -⟩ := h.first
  simp

theorem IsUnit.not_avoids (h : IsUnit u) (s : Text) : ¬ (u ++ s).Avoids isConsonant := by
  obtain ⟨c, t, rfl, hc⟩ := h.first
  simp [hc]

/-- Behind its first letter a unit other than `ng` has no consonant. -/
theorem IsUnit.tail (h : IsUnit u) (hnasal : u ≠ nasalUnit) :
    ∀ c ∈ u.tail, isConsonant c = false := by
  have hh : isConsonant 'h' = false := by decide
  rcases h with rfl | rfl | ⟨c, hc, rfl⟩ | ⟨c, hc, rfl⟩
  · simp [hh]
  · exact absurd rfl hnasal
  · simp [hh]
  · simp

/-- No unit has the letter `n` behind its first one. -/
theorem IsUnit.n_notMem_tail (h : IsUnit u) : 'n' ∉ u.tail := by
  intro hmem
  by_cases hnasal : u = nasalUnit
  · rw [hnasal] at hmem
    exact absurd hmem (by decide)
  · exact absurd (h.tail hnasal _ hmem) (by decide)

/-! ## The unit at a place -/

/-- The candidates are the units with which the text starts. -/
theorem mem_cuts_iff {cut : Cut} : cut ∈ cuts s ↔ IsUnit cut.unit ∧ cut.unit ++ cut.rest = s := by
  constructor
  · exact fun h => (cuts_cases h).symm
  · obtain ⟨unit, rest⟩ := cut
    rintro ⟨hunit, rfl⟩
    rcases hunit with rfl | rfl | ⟨c, hc, rfl⟩ | ⟨c, hc, rfl⟩
    · simp [cuts, palatal]
    · simp [cuts, nasal, nasalUnit]
    · simp [cuts, aspirate, hc]
    · simp [cuts, plain, hc]

/-- The place of a unit in the order of preference: `chh`, `ng`, a letter with `h` behind
    it, a letter alone. -/
def rank (u : Text) : Nat :=
  if u = ['c', 'h', 'h'] then 0
  else if u = nasalUnit then 1
  else if u.tail = ['h'] then 2
  else 3

theorem rank_aspirate (c : Char) : rank [c, 'h'] = 2 := by
  simp [rank, nasalUnit]

theorem rank_plain (c : Char) : rank [c] = 3 := by
  simp [rank, nasalUnit]

theorem IsUnit.rank_length (h : IsUnit u) :
    rank u = 0 ∧ u.length = 3 ∨ rank u = 1 ∧ u.length = 2 ∨ rank u = 2 ∧ u.length = 2 ∨
      rank u = 3 ∧ u.length = 1 := by
  rcases h with rfl | rfl | ⟨c, -, rfl⟩ | ⟨c, -, rfl⟩
  · exact .inl ⟨rfl, rfl⟩
  · exact .inr (.inl ⟨rfl, rfl⟩)
  · exact .inr (.inr (.inl ⟨rank_aspirate c, rfl⟩))
  · exact .inr (.inr (.inr ⟨rank_plain c, rfl⟩))

/-- Candidates come in the order of preference. -/
theorem pairwise_rank_cuts (s : Text) :
    (cuts s).Pairwise fun a b => rank a.unit < rank b.unit := by
  have hpalatal : palatal s = [] ∨ ∃ r, palatal s = [⟨['c', 'h', 'h'], r⟩] := by
    unfold palatal; split <;> simp
  have hnasal : nasal s = [] ∨ ∃ r, nasal s = [⟨['n', 'g'], r⟩] := by
    unfold nasal; split <;> simp
  have haspirate : aspirate s = [] ∨ ∃ c r, aspirate s = [⟨[c, 'h'], r⟩] := by
    unfold aspirate; split <;> (try split) <;> simp
  have hplain : plain s = [] ∨ ∃ c r, plain s = [⟨[c], r⟩] := by
    unfold plain; split <;> (try split) <;> simp
  have hfixed : rank ['c', 'h', 'h'] = 0 ∧ rank ['n', 'g'] = 1 := ⟨rfl, rfl⟩
  rcases hpalatal with hp | ⟨_, hp⟩ <;> rcases hnasal with hn | ⟨_, hn⟩ <;>
    rcases haspirate with ha | ⟨_, _, ha⟩ <;> rcases hplain with hl | ⟨_, _, hl⟩ <;>
    simp [cuts, hp, hn, ha, hl, hfixed, rank_aspirate, rank_plain]

/-- Longer candidates come first. -/
theorem pairwise_cuts (s : Text) :
    (cuts s).Pairwise fun a b => b.unit.length ≤ a.unit.length := by
  refine (pairwise_rank_cuts s).imp_of_mem fun ha hb hrank => ?_
  have hfirst := (mem_cuts_iff.1 ha).1.rank_length
  have hsecond := (mem_cuts_iff.1 hb).1.rank_length
  omega

/-- The preferred unit at the start of a text. -/
def unit? (s : Text) : Option Cut :=
  (cuts s).head?

/-- Whether `u` is the longest unit with which `u ++ s` starts. -/
def Leads (u s : Text) : Prop :=
  IsUnit u ∧ ∀ v, IsUnit v → v <+: u ++ s → v.length ≤ u.length

/-- Only one unit leads a text. -/
theorem Leads.unique {r q : Text} (hu : Leads u r) (hv : Leads v q) (h : u ++ r = v ++ q) :
    u = v ∧ r = q := by
  have hle : u.length ≤ v.length := hv.2 u hu.1 ⟨r, h⟩
  have hge : v.length ≤ u.length := hu.2 v hv.1 ⟨q, h.symm⟩
  exact List.append_inj h (Nat.le_antisymm hle hge)

theorem Leads.of_append {r : Text} (h : Leads u (s ++ r)) : Leads u s :=
  ⟨h.1, fun v hv hstart => h.2 v hv (hstart.trans ⟨r, by simp⟩)⟩

theorem leads_of_unit? {cut : Cut} (h : unit? s = some cut) :
    Leads cut.unit cut.rest ∧ cut.unit ++ cut.rest = s := by
  obtain ⟨others, hcuts⟩ := List.head?_eq_some_iff.1 h
  obtain ⟨hunit, happend⟩ := mem_cuts_iff.1 (List.mem_of_head? h)
  refine ⟨⟨hunit, ?_⟩, happend⟩
  rintro v hv ⟨rest, hrest⟩
  have hmem : (⟨v, rest⟩ : Cut) ∈ cuts s := mem_cuts_iff.2 ⟨hv, hrest.trans happend⟩
  have hpairs := pairwise_cuts s
  rw [hcuts, List.pairwise_cons] at hpairs
  rw [hcuts, List.mem_cons] at hmem
  rcases hmem with rfl | hmem
  · exact Nat.le_refl _
  · exact hpairs.1 _ hmem

theorem unit?_eq_none_iff (s : Text) : unit? s = none ↔ s.Avoids isConsonant := by
  rw [unit?, List.head?_eq_none_iff, List.eq_nil_iff_forall_not_mem]
  constructor
  · intro h
    cases s with
    | nil => simp
    | cons c s =>
      rw [Text.avoids_cons, ← Bool.not_eq_true]
      intro hc
      exact h ⟨[c], s⟩ (mem_cuts_iff.2 ⟨isUnit_singleton hc, rfl⟩)
  · intro h cut hcut
    obtain ⟨hunit, rfl⟩ := mem_cuts_iff.1 hcut
    exact hunit.not_avoids cut.rest h

theorem Leads.unit?_eq (h : Leads u s) : unit? (u ++ s) = some ⟨u, s⟩ := by
  cases hunit : unit? (u ++ s) with
  | none => exact absurd ((unit?_eq_none_iff _).1 hunit) (h.1.not_avoids s)
  | some cut =>
    obtain ⟨hleads, happend⟩ := leads_of_unit? hunit
    obtain ⟨hu, hs⟩ := hleads.unique h happend
    rw [← hu, ← hs]

/-- A text that starts with a consonant starts with a unit. -/
theorem exists_leads (h : ¬ s.Avoids isConsonant) : ∃ u r, s = u ++ r ∧ Leads u r := by
  cases hunit : unit? s with
  | none => exact absurd ((unit?_eq_none_iff s).1 hunit) h
  | some cut =>
    obtain ⟨hleads, happend⟩ := leads_of_unit? hunit
    exact ⟨cut.unit, cut.rest, happend.symm, hleads⟩

theorem leads_nasalUnit (s : Text) : Leads nasalUnit s := by
  refine ⟨isUnit_nasalUnit, ?_⟩
  rintro v (rfl | rfl | ⟨c, -, rfl⟩ | ⟨c, -, rfl⟩) hstart
  · simp [nasalUnit] at hstart
  all_goals simp [nasalUnit]

/-- A unit does not end between the letters `n` and `g`. -/
theorem not_leads_n (t s : Text) : ¬ Leads (t ++ ['n']) ('g' :: s) := by
  intro h
  cases t with
  | nil =>
    have hle := h.2 nasalUnit isUnit_nasalUnit ⟨s, rfl⟩
    simp [nasalUnit] at hle
  | cons c t => exact h.1.n_notMem_tail (by simp)

/-- A unit at the start of a text does not reach beyond a letter `n` inside it. -/
theorem Leads.exists_append {r : Text} (hu : Leads u r) (h : u ++ r = s ++ 'n' :: t) (hs : s ≠ []) :
    ∃ s', s = u ++ s' ∧ r = s' ++ 'n' :: t := by
  rcases List.append_eq_append_iff.1 h with ⟨s', hs', hr⟩ | ⟨beyond, hbeyond, hr⟩
  · exact ⟨s', hs', hr⟩
  · cases beyond with
    | nil => exact ⟨[], by simp [hbeyond], hr.symm⟩
    | cons c beyond =>
      obtain ⟨d, s, rfl⟩ := List.exists_cons_of_ne_nil hs
      rw [List.cons_append, List.cons.injEq] at hr
      exact absurd hu.1.n_notMem_tail (by simp [hbeyond, ← hr.1])

/-! ## Filling from unit to unit -/

theorem fill_of_pair {p : Pair} (h : pair? s = some p) :
    fill s = p.first ++ 'a' :: p.second ++ fill p.rest := by
  cases s with
  | nil => cases h
  | cons c s =>
    rw [fill]
    split <;> simp_all

theorem fill_of_none (h : pair? (c :: s) = none) : fill (c :: s) = c :: fill s := by
  rw [fill]
  split <;> simp_all

theorem pair?_eq_none_iff (s : Text) :
    pair? s = none ↔ ∀ u v r, s = u ++ (v ++ r) → IsUnit u → ¬ IsUnit v := by
  simp only [pair?, List.findSome?_eq_none_iff, Option.map_eq_none_iff, List.head?_eq_none_iff,
    List.eq_nil_iff_forall_not_mem]
  constructor
  · rintro h u v r rfl hu hv
    exact h ⟨u, v ++ r⟩ (mem_cuts_iff.2 ⟨hu, rfl⟩) ⟨v, r⟩ (mem_cuts_iff.2 ⟨hv, rfl⟩)
  · intro h a ha b hb
    obtain ⟨hunit, happend⟩ := mem_cuts_iff.1 ha
    obtain ⟨hunit', happend'⟩ := mem_cuts_iff.1 hb
    exact h _ _ _ (happend' ▸ happend.symm) hunit hunit'

/-- Filling brings in no character but `a`. -/
theorem mem_fill (h : c ∈ fill s) : c = 'a' ∨ c ∈ s := by
  fun_induction fill s with
  | case1 => exact .inr h
  | case2 d s p hpair ih =>
    rw [← pair?_append hpair]
    simp only [List.mem_append, List.mem_cons] at h ⊢
    rcases h with (h | h | h) | h
    · exact .inr (.inl (.inl h))
    · exact .inl h
    · exact .inr (.inl (.inr h))
    · exact (ih h).imp_right .inr
  | case3 d s _ ih =>
    rw [List.mem_cons] at h
    rcases h with rfl | h
    · simp
    · exact (ih h).imp_right (List.mem_cons_of_mem d)

theorem exists_fill_cons (c : Char) (s : Text) : ∃ t, fill (c :: s) = c :: t := by
  cases hpair : pair? (c :: s) with
  | none => exact ⟨_, fill_of_none hpair⟩
  | some p =>
    obtain ⟨a, ha, b, -, rfl⟩ := pair?_cuts hpair
    obtain ⟨d, unit, hunit⟩ := List.exists_cons_of_ne_nil (unit_ne_nil ha)
    have happend := pair?_append hpair
    simp only [hunit, List.cons_append, List.cons.injEq] at happend
    exact ⟨_, by rw [fill_of_pair hpair, hunit, happend.1]; rfl⟩

/-- Two adjacent units somewhere in a text. -/
def HasCluster (s : Text) : Prop :=
  ∃ before u v after, s = before ++ (u ++ (v ++ after)) ∧ IsUnit u ∧ IsUnit v

theorem length_le_length_fill (s : Text) : s.length ≤ (fill s).length := by
  fun_induction fill s with
  | case1 => exact Nat.le_refl _
  | case2 c s p hpair ih =>
    have hlength := congrArg List.length (pair?_append hpair)
    simp only [List.length_append, List.length_cons] at hlength ⊢
    omega
  | case3 c s _ ih => exact Nat.succ_le_succ ih

/-- Filling changes exactly the texts with two adjacent units. -/
theorem fill_eq_self_iff (s : Text) : fill s = s ↔ ¬ HasCluster s := by
  fun_induction fill s with
  | case1 =>
    simp only [true_iff]
    rintro ⟨before, u, v, after, heq, hu, -⟩
    obtain ⟨c, t, rfl, -⟩ := hu.first
    simp at heq
  | case2 c s p hpair =>
    obtain ⟨a, ha, b, hb, rfl⟩ := pair?_cuts hpair
    obtain ⟨hfirst, hrest⟩ := mem_cuts_iff.1 ha
    obtain ⟨hsecond, hrest'⟩ := mem_cuts_iff.1 hb
    have hcluster : HasCluster (c :: s) :=
      ⟨[], a.unit, b.unit, b.rest, by rw [hrest', hrest, List.nil_append], hfirst, hsecond⟩
    simp only [hcluster, not_true_eq_false, iff_false]
    intro heq
    have hlength := congrArg List.length (pair?_append hpair)
    have hfilled := congrArg List.length heq
    have hle := length_le_length_fill b.rest
    simp only [List.length_append, List.length_cons] at hlength hfilled hle
    omega
  | case3 c s hpair ih =>
    rw [List.cons.injEq, and_iff_right rfl, ih]
    refine not_congr ⟨?_, ?_⟩
    · rintro ⟨before, u, v, after, rfl, hunits⟩
      exact ⟨c :: before, u, v, after, rfl, hunits⟩
    · rintro ⟨before, u, v, after, heq, hu, hv⟩
      cases before with
      | nil => exact absurd hv ((pair?_eq_none_iff _).1 hpair u v after heq hu)
      | cons d before =>
        rw [List.cons_append, List.cons.injEq] at heq
        exact ⟨before, u, v, after, heq.2, hu, hv⟩

theorem fill_cons (hc : isConsonant c = false) (s : Text) : fill (c :: s) = c :: fill s := by
  refine fill_of_none ((pair?_eq_none_iff _).2 ?_)
  intro u v r heq hu
  exact absurd (heq ▸ (Text.avoids_cons _ c s).2 hc) (hu.not_avoids _)

theorem fill_append (ht : ∀ c ∈ t, isConsonant c = false) (s : Text) :
    fill (t ++ s) = t ++ fill s := by
  induction t with
  | nil => rfl
  | cons c t ih =>
    rw [List.forall_mem_cons] at ht
    rw [List.cons_append, fill_cons ht.1, ih ht.2, List.cons_append]

/-- Two units that lead are a pair. -/
theorem fill_pair (hu : Leads u (v ++ s)) (hv : Leads v s) :
    fill (u ++ (v ++ s)) = u ++ 'a' :: v ++ fill s := by
  have hpair : pair? (u ++ (v ++ s)) = some ⟨u, v, s⟩ := by
    obtain ⟨others, hcuts⟩ := List.head?_eq_some_iff.1 hu.unit?_eq
    have hsecond : (cuts (v ++ s)).head? = some ⟨v, s⟩ := hv.unit?_eq
    simp [pair?, hcuts, hsecond]
  exact fill_of_pair hpair

/-- A unit other than `ng` without a partner is left alone. -/
theorem fill_lone (hu : Leads u s) (hnasal : u ≠ nasalUnit) (hs : s.Avoids isConsonant) :
    fill (u ++ s) = u ++ fill s := by
  obtain ⟨c, t, rfl, hc⟩ := hu.1.first
  have htail : ∀ d ∈ t, isConsonant d = false := hu.1.tail hnasal
  have hpair : pair? (c :: t ++ s) = none := by
    refine (pair?_eq_none_iff _).2 ?_
    intro v w r heq hv hw
    -- The longest unit has `v` in front, so what follows `v` is its tail or behind it.
    have hle : v.length ≤ (c :: t).length := hu.2 v hv ⟨w ++ r, heq.symm⟩
    obtain ⟨left, hleft, hrest⟩ : ∃ left, c :: t = v ++ left ∧ w ++ r = left ++ s := by
      obtain ⟨left, hleft⟩ := List.prefix_of_prefix_length_le ⟨w ++ r, heq.symm⟩
        (List.prefix_append (c :: t) s) hle
      refine ⟨left, hleft.symm, ?_⟩
      rw [← hleft, List.append_assoc] at heq
      exact (List.append_cancel_left heq).symm
    refine hw.not_avoids r (hrest ▸ ?_)
    cases left with
    | nil => exact hs
    | cons d left =>
      obtain ⟨e, tail, rfl, -⟩ := hv.first
      rw [List.cons_append, List.cons.injEq] at hleft
      exact (Text.avoids_cons _ d _).2 (htail d (by simp [hleft.2]))
  have hstep : fill (c :: (t ++ s)) = c :: fill (t ++ s) := fill_of_none hpair
  rw [List.cons_append, hstep, fill_append htail, List.cons_append]

/-- The unit `ng` without a partner is taken apart. -/
theorem fill_nasal (hs : s.Avoids isConsonant) :
    fill ('n' :: 'g' :: s) = 'n' :: 'a' :: 'g' :: fill s := by
  obtain ⟨v, r, heq, hv⟩ : ∃ v r, 'g' :: s = v ++ r ∧ Leads v r :=
    exists_leads (by simp [isConsonant])
  have hpair : pair? ('n' :: 'g' :: s) = some ⟨['n'], v, r⟩ := by
    have hcuts : cuts ('n' :: 'g' :: s) = [⟨nasalUnit, s⟩, ⟨['n'], 'g' :: s⟩] := rfl
    have hfirst : (cuts s).head? = none := (unit?_eq_none_iff s).2 hs
    have hsecond : (cuts ('g' :: s)).head? = some ⟨v, r⟩ := heq ▸ hv.unit?_eq
    simp [pair?, hcuts, hfirst, hsecond]
  obtain ⟨c, t, rfl, -⟩ := hv.1.first
  rw [List.cons_append, List.cons.injEq] at heq
  obtain ⟨rfl, rfl⟩ := heq
  have htail : ∀ d ∈ t, isConsonant d = false := hv.1.tail (by simp [nasalUnit])
  rw [fill_of_pair hpair, fill_append htail]
  simp

/-- Induction along the units of a text. -/
theorem fill_induction {motive : Text → Prop} (nil : motive [])
    (other : ∀ c s, isConsonant c = false → motive s → motive (c :: s))
    (lone : ∀ u s, Leads u s → u ≠ nasalUnit → s.Avoids isConsonant → motive s → motive (u ++ s))
    (nasal : ∀ s, s.Avoids isConsonant → motive s → motive ('n' :: 'g' :: s))
    (pair : ∀ u v s, Leads u (v ++ s) → Leads v s → motive s → motive (u ++ (v ++ s)))
    (s : Text) : motive s := by
  induction hn : s.length using Nat.strongRecOn generalizing s with
  | ind n ih =>
    subst hn
    by_cases hs : s.Avoids isConsonant
    · cases s with
      | nil => exact nil
      | cons c s =>
        rw [Text.avoids_cons] at hs
        exact other c s hs (ih _ (by simp) s rfl)
    · obtain ⟨u, r, rfl, hu⟩ := exists_leads hs
      have hpos := List.length_pos_iff.2 hu.1.ne_nil
      by_cases hr : r.Avoids isConsonant
      · have hrest : motive r := ih _ (by simp; omega) r rfl
        by_cases hnasal : u = nasalUnit
        · exact hnasal ▸ nasal r hr hrest
        · exact lone u r hu hnasal hr hrest
      · obtain ⟨v, q, rfl, hv⟩ := exists_leads hr
        exact pair u v q hu hv (ih _ (by simp; omega) q rfl)

end BanglaSource.Cluster
