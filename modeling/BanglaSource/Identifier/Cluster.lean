-- SUMMARY: Inserts the inherent vowel between adjacent consonant units of a Latin spelling.
import BanglaSource.Text

/-!
# Consonant clusters

Spelling letter by letter drops the inherent vowel of Bangla consonants. To make
a cluster pronounceable an `a` is put between two adjacent consonant units, from
left to right and without overlap. A unit is one of the digraphs that the
grapheme table produces, or a single consonant; `h`, `y` and `f` are none on
their own.
-/
namespace BanglaSource.Cluster

-- ---------------------------------------------------------------------------
-- Units
-- ---------------------------------------------------------------------------

/-- The consonants that form a unit with a following `h`. -/
def takesH (c : Char) : Bool :=
  ['b', 'c', 'd', 'g', 'j', 'k', 'p', 's', 't', 'r'].contains c

/-- The consonants that are units on their own. -/
def isConsonant (c : Char) : Bool :=
  ['b', 'c', 'd', 'g', 'j', 'k', 'l', 'm', 'n',
    'p', 'q', 'r', 's', 't', 'v', 'w', 'x', 'z'].contains c

/-- A unit at the start of a text, and what follows it. -/
structure Cut where
  unit : Text
  rest : Text
deriving DecidableEq, Repr

def palatal : Text → List Cut
  | 'c' :: 'h' :: 'h' :: s => [⟨['c', 'h', 'h'], s⟩]
  | _ => []

def nasal : Text → List Cut
  | 'n' :: 'g' :: s => [⟨['n', 'g'], s⟩]
  | _ => []

def aspirate : Text → List Cut
  | c :: 'h' :: s => if takesH c then [⟨[c, 'h'], s⟩] else []
  | _ => []

def plain : Text → List Cut
  | c :: s => if isConsonant c then [⟨[c], s⟩] else []
  | [] => []

/-- The units with which a text starts, the preferred ones first. -/
def cuts (s : Text) : List Cut :=
  palatal s ++ nasal s ++ aspirate s ++ plain s

/-- The four kinds of units. -/
theorem cuts_cases {s : Text} {cut : Cut} (h : cut ∈ cuts s) :
    cut.unit ++ cut.rest = s ∧
      (cut.unit = ['c', 'h', 'h'] ∨ cut.unit = ['n', 'g'] ∨
        (∃ c, takesH c = true ∧ cut.unit = [c, 'h']) ∨
        ∃ c, isConsonant c = true ∧ cut.unit = [c]) := by
  simp only [cuts, List.mem_append] at h
  rcases h with ((h | h) | h) | h
  · unfold palatal at h; split at h <;> simp_all
  · unfold nasal at h; split at h <;> simp_all
  · unfold aspirate at h; split at h <;> try split at h
    all_goals simp_all
  · unfold plain at h; split at h <;> try split at h
    all_goals simp_all

theorem cut_append {s : Text} {cut : Cut} (h : cut ∈ cuts s) : cut.unit ++ cut.rest = s :=
  (cuts_cases h).1

theorem unit_ne_nil {s : Text} {cut : Cut} (h : cut ∈ cuts s) : cut.unit ≠ [] := by
  rcases (cuts_cases h).2 with hunit | hunit | ⟨c, -, hunit⟩ | ⟨c, -, hunit⟩ <;> simp [hunit]

-- ---------------------------------------------------------------------------
-- Pairs of units
-- ---------------------------------------------------------------------------

/-- Two adjacent units at the start of a text, and what follows them. -/
structure Pair where
  first : Text
  second : Text
  rest : Text
deriving DecidableEq, Repr

/-- The preferred pair of units at the start of a text. The choice of the first
    unit counts more than that of the second. -/
def pair? (s : Text) : Option Pair :=
  (cuts s).findSome? fun a => (cuts a.rest).head?.map fun b => ⟨a.unit, b.unit, b.rest⟩

theorem pair?_cuts {s : Text} {p : Pair} (h : pair? s = some p) :
    ∃ a ∈ cuts s, ∃ b ∈ cuts a.rest, p = ⟨a.unit, b.unit, b.rest⟩ := by
  obtain ⟨a, ha, hb⟩ := List.exists_of_findSome?_eq_some h
  obtain ⟨b, hhead, rfl⟩ := Option.map_eq_some_iff.1 hb
  exact ⟨a, ha, b, List.mem_of_head? hhead, rfl⟩

theorem pair?_append {s : Text} {p : Pair} (h : pair? s = some p) :
    p.first ++ p.second ++ p.rest = s := by
  obtain ⟨a, ha, b, hb, rfl⟩ := pair?_cuts h
  simp [cut_append hb, cut_append ha]

theorem length_pair?_rest_lt {s : Text} {p : Pair} (h : pair? s = some p) :
    p.rest.length < s.length := by
  obtain ⟨a, ha, b, hb, rfl⟩ := pair?_cuts h
  have hs := congrArg List.length (cut_append ha)
  have hr := congrArg List.length (cut_append hb)
  have hu := List.length_pos_iff.2 (unit_ne_nil hb)
  simp only [List.length_append] at hs hr ⊢
  omega

-- ---------------------------------------------------------------------------
-- Filling
-- ---------------------------------------------------------------------------

/-- Puts an `a` between the units of each pair. -/
def fill : Text → Text
  | [] => []
  | c :: s =>
    match _h : pair? (c :: s) with
    | some p => p.first ++ 'a' :: p.second ++ fill p.rest
    | none => c :: fill s
termination_by s => s.length
decreasing_by
  · exact length_pair?_rest_lt _h
  · simp

end BanglaSource.Cluster
