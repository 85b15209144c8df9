-- SUMMARY: The pairs that filling takes apart are the only set of disjoint intervals outside of which no pair of units starts.
import BanglaSource.Proofs.ClusterUnits
import Mathlib.Data.Finset.Card
import Mathlib.Data.Set.Pairwise.Basic
import Mathlib.Order.Interval.Finset.Nat

/-!
# Intervals of a cluster

Filling goes through a text from left to right. What it does can be said without a
direction: the places of a text are divided into intervals, each of them the preferred
pair of units at its start, and places at which no pair starts. There is only one such
division. Read from the left, the first place either starts no pair and lies in no
interval, or starts one and lies in the interval of the preferred pair, because no
interval starts before it. The rest of the text is divided in the same way.
-/
namespace BanglaSource.Cluster

variable {s t u v : Text}

/-! ## Preferred pairs -/

/-- Two adjacent units with which a text starts. -/
structure StartsPair (s u v : Text) : Prop where
  first : IsUnit u
  second : IsUnit v
  start : u ++ v <+: s

/-- Whether a pair of units comes before all others with which the text starts. The choice
    of the first unit counts more than that of the second. -/
def Preferred (s u v : Text) : Prop :=
  StartsPair s u v ∧ ∀ u' v', StartsPair s u' v' →
    rank u < rank u' ∨ rank u = rank u' ∧ rank v ≤ rank v'

/-- Units of one rank at one place are the same. -/
theorem IsUnit.eq_of_rank (hu : IsUnit u) (hv : IsUnit v) (hrank : rank u = rank v)
    (hus : u <+: s) (hvs : v <+: s) : u = v := by
  have hlength : u.length = v.length := by
    have hu' := hu.rank_length
    have hv' := hv.rank_length
    omega
  exact (List.prefix_of_prefix_length_le hus hvs hlength.le).eq_of_length hlength

/-- Only one pair is preferred. -/
theorem Preferred.unique {u' v' : Text} (h : Preferred s u v) (h' : Preferred s u' v') :
    u = u' ∧ v = v' := by
  have hle := h.2 u' v' h'.1
  have hge := h'.2 u v h.1
  obtain rfl : u = u' :=
    h.1.first.eq_of_rank h'.1.first (by omega) ((List.prefix_append u v).trans h.1.start)
      ((List.prefix_append u' v').trans h'.1.start)
  obtain ⟨t, rfl⟩ := (List.prefix_append u v).trans h.1.start
  have hv : v <+: t := (List.prefix_append_right_inj u).1 h.1.start
  have hv' : v' <+: t := (List.prefix_append_right_inj u).1 h'.1.start
  exact ⟨rfl, h.1.second.eq_of_rank h'.1.second (by omega) hv hv'⟩

theorem preferred_of_pair? {p : Pair} (h : pair? s = some p) : Preferred s p.first p.second := by
  obtain ⟨before, a, after, hcuts, ha, hbefore⟩ := List.findSome?_eq_some_iff.1 h
  obtain ⟨b, hb, rfl⟩ := Option.map_eq_some_iff.1 ha
  obtain ⟨others, hothers⟩ := List.head?_eq_some_iff.1 hb
  obtain ⟨hfirst, hrest⟩ := mem_cuts_iff.1 (show a ∈ cuts s by simp [hcuts])
  obtain ⟨hsecond, hrest'⟩ := mem_cuts_iff.1 (List.mem_of_head? hb)
  refine ⟨⟨hfirst, hsecond, b.rest, by rw [List.append_assoc, hrest', hrest]⟩, ?_⟩
  rintro u v ⟨hu, hv, r, hr⟩
  have hcut : (⟨u, v ++ r⟩ : Cut) ∈ cuts s :=
    mem_cuts_iff.2 ⟨hu, by rw [← hr, List.append_assoc]⟩
  have hcut' : (⟨v, r⟩ : Cut) ∈ cuts (v ++ r) := mem_cuts_iff.2 ⟨hv, rfl⟩
  have hranks := pairwise_rank_cuts s
  rw [hcuts, List.pairwise_append, List.pairwise_cons] at hranks
  rw [hcuts, List.mem_append, List.mem_cons] at hcut
  rcases hcut with hmem | rfl | hmem
  · -- A candidate in front of the chosen one has no unit behind it.
    have hnone := hbefore _ hmem
    rw [Option.map_eq_none_iff, List.head?_eq_none_iff] at hnone
    rw [hnone] at hcut'
    cases hcut'
  · -- With the same first unit, the second one is the first candidate.
    have hranks' := pairwise_rank_cuts (v ++ r)
    rw [hothers, List.pairwise_cons] at hranks'
    rw [hothers, List.mem_cons] at hcut'
    rcases hcut' with rfl | hmem
    · exact .inr ⟨rfl, Nat.le_refl _⟩
    · exact .inr ⟨rfl, (hranks'.1 _ hmem).le⟩
  · exact .inl (hranks.2.1.1 _ hmem)

theorem not_startsPair_of_pair? (h : pair? s = none) (u v : Text) : ¬ StartsPair s u v := by
  rintro ⟨hu, hv, r, rfl⟩
  rw [List.append_assoc] at h
  exact (pair?_eq_none_iff _).1 h u v r rfl hu hv

/-! ## Intervals -/

/-- The places of a text from `start` on and before `stop`, cut in two at `middle`. -/
structure Interval where
  start : Nat
  middle : Nat
  stop : Nat
deriving DecidableEq

namespace Interval

def places (i : Interval) : Finset Nat :=
  Finset.Ico i.start i.stop

theorem mem_places {i : Interval} {n : Nat} : n ∈ i.places ↔ i.start ≤ n ∧ n < i.stop :=
  Finset.mem_Ico

/-- The interval of two adjacent units. -/
def ofUnits (start : Nat) (u v : Text) : Interval :=
  ⟨start, start + u.length, start + u.length + v.length⟩

/-- Whether an interval of the text is the preferred pair of units at its start. -/
def IsPair (s : Text) (i : Interval) : Prop :=
  ∃ u v, Preferred (s.drop i.start) u v ∧ i = ofUnits i.start u v

/-- Both units of a pair have letters. -/
theorem IsPair.lt {i : Interval} (h : i.IsPair s) : i.start < i.middle ∧ i.middle < i.stop := by
  obtain ⟨u, v, hpair, hi⟩ := h
  have hu := List.length_pos_iff.2 hpair.1.first.ne_nil
  have hv := List.length_pos_iff.2 hpair.1.second.ne_nil
  rw [hi, ofUnits]
  dsimp only
  omega

theorem IsPair.stop_le {i : Interval} (h : i.IsPair s) : i.stop ≤ s.length := by
  obtain ⟨u, v, hpair, hi⟩ := h
  have hlength := hpair.1.start.length_le
  have hu := List.length_pos_iff.2 hpair.1.first.ne_nil
  rw [List.length_append, List.length_drop] at hlength
  rw [hi, ofUnits]
  dsimp only
  omega

end Interval

/-- Whether the intervals are preferred pairs of the text, disjoint, and such that no pair
    starts at a place outside of them. -/
structure IsDivision (s : Text) (I : Finset Interval) : Prop where
  isPair : ∀ i ∈ I, i.IsPair s
  disjoint : (I : Set Interval).PairwiseDisjoint Interval.places
  outside : ∀ n, (∀ i ∈ I, n ∉ i.places) → ∀ u v, ¬ StartsPair (s.drop n) u v

/-- The same from place `base` on. -/
structure IsDivisionFrom (s : Text) (base : Nat) (I : Finset Interval) : Prop where
  le : ∀ i ∈ I, base ≤ i.start
  isPair : ∀ i ∈ I, i.IsPair s
  disjoint : (I : Set Interval).PairwiseDisjoint Interval.places
  outside : ∀ n, base ≤ n → (∀ i ∈ I, n ∉ i.places) → ∀ u v, ¬ StartsPair (s.drop n) u v

theorem isDivision_iff {I : Finset Interval} : IsDivision s I ↔ IsDivisionFrom s 0 I :=
  ⟨fun h => ⟨fun _ _ => Nat.zero_le _, h.isPair, h.disjoint, fun n _ => h.outside n⟩,
    fun h => ⟨h.isPair, h.disjoint, fun n => h.outside n (Nat.zero_le n)⟩⟩

/-! ## One place, and one pair -/

variable {base : Nat} {I : Finset Interval}

theorem isDivisionFrom_of_drop_eq_nil (h : s.drop base = []) :
    IsDivisionFrom s base I ↔ I = ∅ := by
  have hlength : s.length ≤ base := List.drop_eq_nil_iff.1 h
  constructor
  · intro hdivision
    refine Finset.eq_empty_of_forall_notMem fun i hi => ?_
    have hbase := hdivision.le i hi
    have hlt := (hdivision.isPair i hi).lt
    have hstop := (hdivision.isPair i hi).stop_le
    omega
  · rintro rfl
    refine ⟨by simp, by simp, by simp, fun n hn _ u v hpair => ?_⟩
    have hnil : s.drop n = [] := List.drop_eq_nil_iff.2 (by omega)
    have hstart := hpair.start
    rw [hnil, List.prefix_nil, List.append_eq_nil_iff] at hstart
    exact hpair.first.ne_nil hstart.1

/-- A place at which no pair starts belongs to no interval. -/
theorem isDivisionFrom_of_not_startsPair (h : ∀ u v, ¬ StartsPair (s.drop base) u v) :
    IsDivisionFrom s base I ↔ IsDivisionFrom s (base + 1) I := by
  constructor
  · intro hdivision
    refine ⟨fun i hi => ?_, hdivision.isPair, hdivision.disjoint,
      fun n hn => hdivision.outside n (by omega)⟩
    obtain ⟨u, v, hpair, -⟩ := hdivision.isPair i hi
    have hne : i.start ≠ base := by
      intro heq
      exact h u v (heq ▸ hpair.1)
    have hle := hdivision.le i hi
    omega
  · intro hdivision
    refine ⟨fun i hi => (Nat.le_succ base).trans (hdivision.le i hi), hdivision.isPair,
      hdivision.disjoint, fun n hn houtside => ?_⟩
    rcases Nat.eq_or_lt_of_le hn with rfl | hlt
    · exact h
    · exact hdivision.outside n hlt houtside

/-- A pair that starts at the first place is the first interval. -/
theorem IsDivisionFrom.ofUnits_mem (h : IsDivisionFrom s base I)
    (hpair : Preferred (s.drop base) u v) : Interval.ofUnits base u v ∈ I := by
  have hinside : ∃ i ∈ I, base ∈ i.places := by
    by_contra hnone
    push Not at hnone
    exact h.outside base le_rfl hnone u v hpair.1
  obtain ⟨i, hi, hbase⟩ := hinside
  obtain ⟨u', v', hpair', heq⟩ := h.isPair i hi
  have hstart : i.start = base := le_antisymm (Interval.mem_places.1 hbase).1 (h.le i hi)
  rw [hstart] at hpair' heq
  obtain ⟨rfl, rfl⟩ := hpair.unique hpair'
  exact heq ▸ hi

/-- Behind the first interval the rest of the text is divided. -/
theorem isDivisionFrom_of_preferred (hpair : Preferred (s.drop base) u v) :
    IsDivisionFrom s base I ↔ ∃ J, I = insert (Interval.ofUnits base u v) J ∧
      IsDivisionFrom s (base + u.length + v.length) J := by
  let first : Interval := .ofUnits base u v
  have hstop : first.stop = base + u.length + v.length := rfl
  constructor
  · intro h
    have hmem : first ∈ I := h.ofUnits_mem hpair
    refine ⟨I.erase first, (Finset.insert_erase hmem).symm, fun i hi => ?_,
      fun i hi => h.isPair i (Finset.mem_of_mem_erase hi),
      h.disjoint.subset (Finset.coe_subset.2 (Finset.erase_subset first I)),
      fun n hn houtside => h.outside n (by omega) fun i hi => ?_⟩
    · -- An interval that starts inside the first one would meet it.
      obtain ⟨hne, hi⟩ := Finset.mem_erase.1 hi
      by_contra hinside
      have hstart : i.start ∈ first.places :=
        Interval.mem_places.2 ⟨h.le i hi, by omega⟩
      have hown : i.start ∈ i.places :=
        Interval.mem_places.2 ⟨le_rfl, (h.isPair i hi).lt.1.trans (h.isPair i hi).lt.2⟩
      exact Finset.disjoint_left.1 (h.disjoint hmem hi hne.symm) hstart hown
    · by_cases heq : i = first
      · rw [heq, Interval.mem_places]
        omega
      · exact houtside i (Finset.mem_erase.2 ⟨heq, hi⟩)
  · rintro ⟨J, rfl, h⟩
    refine ⟨(Finset.forall_mem_insert ..).2 ⟨le_rfl, fun i hi => ?_⟩,
      (Finset.forall_mem_insert ..).2 ⟨⟨u, v, hpair, rfl⟩, h.isPair⟩, ?_, fun n hn houtside => ?_⟩
    · have hbehind := h.le i hi
      omega
    · rw [Finset.coe_insert, Set.pairwiseDisjoint_insert]
      refine ⟨h.disjoint, fun i hi _ => Finset.disjoint_left.2 fun n hn hn' => ?_⟩
      have hbehind := h.le i hi
      have hbefore : n < first.stop := (Interval.mem_places.1 hn).2
      have hin := (Interval.mem_places.1 hn').1
      omega
    · rw [Finset.forall_mem_insert] at houtside
      refine h.outside n ?_ houtside.2
      by_contra hinside
      exact houtside.1 (Interval.mem_places.2 ⟨hn, Nat.lt_of_not_le hinside⟩)

/-! ## The division of a text -/

/-- What is left behind a pair. -/
theorem drop_of_pair? {p : Pair} (h : pair? (s.drop base) = some p) :
    s.drop (base + p.first.length + p.second.length) = p.rest := by
  rw [← List.drop_drop, ← List.drop_drop, ← pair?_append h, List.append_assoc, List.drop_left,
    List.drop_left]

theorem existsUnique_isDivisionFrom (s : Text) (base : Nat) : ∃! I, IsDivisionFrom s base I := by
  induction hrest : s.drop base using fill.induct generalizing base with
  | case1 =>
    exact ⟨∅, (isDivisionFrom_of_drop_eq_nil hrest).2 rfl,
      fun I => (isDivisionFrom_of_drop_eq_nil hrest).1⟩
  | case2 c t p hpair ih =>
    rw [← hrest] at hpair
    have hpreferred := preferred_of_pair? hpair
    obtain ⟨J, hJ, hunique⟩ := ih _ (drop_of_pair? hpair)
    refine ⟨_, (isDivisionFrom_of_preferred hpreferred).2 ⟨J, rfl, hJ⟩, fun I hI => ?_⟩
    obtain ⟨J', rfl, hJ'⟩ := (isDivisionFrom_of_preferred hpreferred).1 hI
    rw [hunique J' hJ']
  | case3 c t hpair ih =>
    rw [← hrest] at hpair
    have hdrop : s.drop (base + 1) = t := by rw [← List.tail_drop, hrest, List.tail_cons]
    simpa only [isDivisionFrom_of_not_startsPair (not_startsPair_of_pair? hpair)] using ih _ hdrop

/-! ## Vowels at places -/

/-- A text whose characters stand at place `base` and behind, with an `a` in front of each
    character at one of the places. -/
def insertAt (places : Finset Nat) (base : Nat) (s : Text) : Text :=
  (s.zipIdx base).flatMap fun (c, n) => if n ∈ places then ['a', c] else [c]

variable {places places' : Finset Nat}

theorem insertAt_cons (places : Finset Nat) (base : Nat) (c : Char) (s : Text) :
    insertAt places base (c :: s) =
      (if base ∈ places then ['a', c] else [c]) ++ insertAt places (base + 1) s := by
  rw [insertAt, List.zipIdx_cons, List.flatMap_cons]
  rfl

theorem insertAt_append (places : Finset Nat) (base : Nat) (s t : Text) :
    insertAt places base (s ++ t) =
      insertAt places base s ++ insertAt places (base + s.length) t := by
  rw [insertAt, List.zipIdx_append, List.flatMap_append]
  rfl

/-- Only the places of the text matter. -/
theorem insertAt_congr
    (h : ∀ n, base ≤ n → n < base + s.length → (n ∈ places ↔ n ∈ places')) :
    insertAt places base s = insertAt places' base s := by
  induction s generalizing base with
  | nil => rfl
  | cons c s ih =>
    rw [List.length_cons] at h
    have hfirst : base ∈ places ↔ base ∈ places' := h base le_rfl (by omega)
    have hrest : insertAt places (base + 1) s = insertAt places' (base + 1) s :=
      ih fun n hn hlt => h n (by omega) (by omega)
    simp only [insertAt_cons, hfirst, hrest]

theorem insertAt_of_notMem (h : ∀ n ∈ places, n < base ∨ base + s.length ≤ n) :
    insertAt places base s = s := by
  have hnone : insertAt places base s = insertAt ∅ base s := by
    refine insertAt_congr fun n hn hlt => ⟨fun hmem => ?_, by simp⟩
    have hout := h n hmem
    omega
  rw [hnone]
  simp [insertAt, ← List.map_eq_flatMap]

/-- The places in front of which the vowels stand. -/
def middles (I : Finset Interval) : Finset Nat :=
  I.image Interval.middle

theorem IsDivisionFrom.lt_of_mem_middles (h : IsDivisionFrom s base I) {n : Nat}
    (hn : n ∈ middles I) : base < n := by
  obtain ⟨i, hi, rfl⟩ := Finset.mem_image.1 hn
  exact (h.le i hi).trans_lt (h.isPair i hi).lt.1

/-- The vowel of the first interval stands between its units, and the others behind. -/
theorem insertAt_middles {r : Text} (hpair : Preferred (s.drop base) u v)
    (h : IsDivisionFrom s (base + u.length + v.length) I) :
    insertAt (middles (insert (.ofUnits base u v) I)) base (u ++ (v ++ r)) =
      u ++ 'a' :: v ++ insertAt (middles I) (base + u.length + v.length) r := by
  obtain ⟨d, w, rfl, -⟩ := hpair.1.second.first
  rw [List.length_cons] at h
  have hmiddles : middles (insert (.ofUnits base u (d :: w)) I) =
      insert (base + u.length) (middles I) := Finset.image_insert ..
  have hbehind : ∀ n ∈ middles I, base + u.length + (w.length + 1) < n :=
    fun n => h.lt_of_mem_middles
  have hfirst : insertAt (insert (base + u.length) (middles I)) base u = u := by
    refine insertAt_of_notMem fun n hn => ?_
    rcases Finset.mem_insert.1 hn with rfl | hn
    · exact .inr le_rfl
    · exact .inr (by have := hbehind n hn; omega)
  have hsecond : insertAt (insert (base + u.length) (middles I)) (base + u.length + 1) w = w := by
    refine insertAt_of_notMem fun n hn => ?_
    rcases Finset.mem_insert.1 hn with rfl | hn
    · exact .inl (Nat.lt_succ_self _)
    · exact .inr (by have := hbehind n hn; omega)
  have hrest : insertAt (insert (base + u.length) (middles I)) (base + u.length + (w.length + 1)) r =
      insertAt (middles I) (base + u.length + (w.length + 1)) r := by
    refine insertAt_congr fun n hn _ => ?_
    rw [Finset.mem_insert, or_iff_right (by omega)]
  rw [hmiddles, insertAt_append, insertAt_append, insertAt_cons, hfirst, hsecond, List.length_cons,
    hrest, if_pos (Finset.mem_insert_self ..)]
  simp

theorem fill_of_isDivisionFrom (h : IsDivisionFrom s base I) :
    fill (s.drop base) = insertAt (middles I) base (s.drop base) := by
  induction hrest : s.drop base using fill.induct generalizing base I with
  | case1 => rw [fill]; rfl
  | case2 c t p hpair ih =>
    have hfill := fill_of_pair hpair
    rw [← hrest] at hpair hfill
    obtain ⟨J, rfl, hJ⟩ := (isDivisionFrom_of_preferred (preferred_of_pair? hpair)).1 h
    have hparts : s.drop base = p.first ++ (p.second ++ p.rest) := by
      rw [← pair?_append hpair, List.append_assoc]
    rw [← hrest, hfill, hparts, insertAt_middles (preferred_of_pair? hpair) hJ,
      ih hJ (drop_of_pair? hpair)]
  | case3 c t hpair ih =>
    have hfill := fill_of_none hpair
    rw [← hrest] at hpair
    have hnext := (isDivisionFrom_of_not_startsPair (not_startsPair_of_pair? hpair)).1 h
    have hbase : base ∉ middles I := fun hmem => lt_irrefl _ (h.lt_of_mem_middles hmem)
    have hdrop : s.drop (base + 1) = t := by rw [← List.tail_drop, hrest, List.tail_cons]
    rw [hfill, insertAt_cons, if_neg hbase, List.singleton_append, ih hnext hdrop]

/-! ## Vowels taken out again -/

/-- The text without the characters at the places. -/
def eraseAt (places : Finset Nat) (s : Text) : Text :=
  (s.zipIdx.filter fun (_, n) => n ∉ places).map Prod.fst

/-- Where place `n` comes to stand when a vowel is put in front of each of the places
    before it. -/
def shifted (places : Finset Nat) (n : Nat) : Nat :=
  n + (places.filter (· < n)).card

theorem shifted_succ (places : Finset Nat) (n : Nat) :
    shifted places (n + 1) = shifted places n + if n ∈ places then 2 else 1 := by
  by_cases hn : n ∈ places
  · have hfilter : places.filter (· < n + 1) = insert n (places.filter (· < n)) := by
      ext m
      simp only [Finset.mem_filter, Finset.mem_insert]
      constructor
      · intro h
        by_cases heq : m = n
        · exact .inl heq
        · exact .inr ⟨h.1, by omega⟩
      · rintro (rfl | h)
        · exact ⟨hn, Nat.lt_succ_self _⟩
        · exact ⟨h.1, by omega⟩
    rw [shifted, hfilter, Finset.card_insert_of_notMem (by simp), if_pos hn, shifted]
    omega
  · have hfilter : places.filter (· < n + 1) = places.filter (· < n) := by
      refine Finset.filter_congr fun m hm => ?_
      have hne : m ≠ n := fun heq => hn (heq ▸ hm)
      omega
    rw [shifted, hfilter, if_neg hn, shifted]
    omega

theorem strictMono_shifted (places : Finset Nat) : StrictMono (shifted places) := by
  refine strictMono_nat_of_lt_succ fun n => ?_
  rw [shifted_succ]
  split <;> omega

theorem length_insertAt (places : Finset Nat) (s : Text) :
    (insertAt places 0 s).length = shifted places s.length := by
  induction s using List.reverseRecOn with
  | nil => simp [insertAt, shifted]
  | append_singleton s c ih =>
    rw [insertAt_append, List.length_append, ih, List.length_append, List.length_singleton,
      shifted_succ, Nat.zero_add, insertAt_cons]
    split <;> rfl

theorem eraseAt_append (places : Finset Nat) (s t : Text) :
    eraseAt places (s ++ t) = eraseAt places s ++
      ((t.zipIdx s.length).filter fun (_, n) => n ∉ places).map Prod.fst := by
  simp [eraseAt, List.zipIdx_append]

/-- Without the vowels the text is the old one. -/
theorem eraseAt_insertAt (places : Finset Nat) (s : Text) :
    eraseAt (places.image (shifted places)) (insertAt places 0 s) = s := by
  have hmono := strictMono_shifted places
  induction s using List.reverseRecOn with
  | nil => rfl
  | append_singleton s c ih =>
    have hplace : shifted places s.length ∈ places.image (shifted places) ↔
        s.length ∈ places := by
      simp [hmono.injective.eq_iff]
    rw [insertAt_append, eraseAt_append, ih, length_insertAt, Nat.zero_add, insertAt_cons]
    by_cases hs : s.length ∈ places
    · -- The letter behind the vowel stands between two shifted places.
      have hbehind : shifted places s.length + 1 ∉ places.image (shifted places) := by
        intro hmem
        obtain ⟨n, -, hn⟩ := Finset.mem_image.1 hmem
        have hnext := shifted_succ places s.length
        rw [if_pos hs] at hnext
        have hlow : s.length < n := hmono.lt_iff_lt.1 (by omega)
        have hhigh : n < s.length + 1 := hmono.lt_iff_lt.1 (by omega)
        omega
      simp [-Finset.mem_image, hs, insertAt, hplace, hbehind]
    · simp [-Finset.mem_image, hs, insertAt, hplace]

/-! ## Filling as a whole -/

/-- No two intervals have their vowel at one place. -/
theorem IsDivision.injOn_middle (h : IsDivision s I) :
    Set.InjOn Interval.middle (I : Set Interval) := by
  intro i hi j hj heq
  by_contra hne
  have hlt := (h.isPair i hi).lt
  have hlt' := (h.isPair j hj).lt
  have hmem : i.middle ∈ i.places := Interval.mem_places.2 ⟨hlt.1.le, hlt.2⟩
  have hmem' : i.middle ∈ j.places := Interval.mem_places.2 (heq ▸ ⟨hlt'.1.le, hlt'.2⟩)
  exact Finset.disjoint_left.1 (h.disjoint hi hj hne) hmem hmem'

theorem IsDivision.shifted_length (h : IsDivision s I) :
    shifted (middles I) s.length = s.length + I.card := by
  have hall : ∀ n ∈ middles I, n < s.length := by
    intro n hn
    obtain ⟨i, hi, rfl⟩ := Finset.mem_image.1 hn
    exact (h.isPair i hi).lt.2.trans_le (h.isPair i hi).stop_le
  rw [shifted, Finset.filter_true_of_mem hall, middles, Finset.card_image_of_injOn h.injOn_middle]

/-- There is exactly one set of disjoint intervals of a text such that each is the preferred
    pair of units at its start and no pair of units starts outside of them. Filling puts
    one `a` between the two units of each and changes nothing else: without the letters at
    the places of these vowels the filled text is the old one. It is the old one from the
    first exactly if no two units are adjacent. -/
theorem fill_unique_division (s : Text) :
    (∃! I, IsDivision s I) ∧
    (∃ I, IsDivision s I ∧
      fill s = insertAt (middles I) 0 s ∧
      (fill s).length = s.length + I.card ∧
      eraseAt ((middles I).image (shifted (middles I))) (fill s) = s) ∧
    (fill s = s ↔ ¬ HasCluster s) := by
  have hunique : ∃! I, IsDivision s I := by
    simpa only [isDivision_iff] using existsUnique_isDivisionFrom s 0
  obtain ⟨I, hI⟩ := hunique.exists
  have hfill : fill s = insertAt (middles I) 0 s :=
    fill_of_isDivisionFrom (isDivision_iff.1 hI)
  refine ⟨hunique, ⟨I, hI, hfill, ?_, ?_⟩, fill_eq_self_iff s⟩
  · rw [hfill, length_insertAt, hI.shifted_length]
  · rw [hfill, eraseAt_insertAt]

-- No unit follows `ng` here, so the pair is `n` and `gh`.
example : fill ['n', 'g', 'h'] = ['n', 'a', 'g', 'h'] := by cbv

end BanglaSource.Cluster
