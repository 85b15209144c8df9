-- SUMMARY: Words of brackets: balance, partners, the openers that are never closed, and how counting finds them.
import BanglaSource.Validation
import Mathlib.Data.List.Infix
import Mathlib.Data.List.Induction

/-!
# Words of brackets

The brackets of one kind among tokens form a word of openers and closers. Two of
them are partners if the word between them is balanced. Partners can be found by
counting: a closer is missing behind an opener exactly if no start of what follows
has more closers than openers. So the largest excess of closers, the openers that
are never closed and the totals determine each other.
-/
namespace BanglaSource

/-- What a bracket does. -/
inductive Side where
  | opening
  | closing
deriving DecidableEq, Repr

namespace Bracket

variable {b : Bracket} {t : Token} {ts us : List Token}

theorem mem_all (b : Bracket) : b ∈ all := by
  cases b <;> decide

theorem opener_ne_closer (b : Bracket) : b.opener ≠ b.closer := by
  cases b <;> decide

/-! ## Words -/

/-- The characters of a kind that open and close. -/
def pair : Bracket → Char × Char
  | round => ('(', ')')
  | square => ('[', ']')
  | curly => ('\x7b', '\x7d')

theorem pair_eq (b : Bracket) : b.pair = (b.opener, b.closer) := by
  cases b <;> rfl

/-- What a token does as a bracket of the kind `b`, if it is one. -/
def side? (b : Bracket) (t : Token) : Option Side :=
  if t.kind = .symbol ∧ t.text = [b.pair.1] then some .opening
  else if t.kind = .symbol ∧ t.text = [b.pair.2] then some .closing
  else none

/-- The openers and closers of one kind among tokens, in order. -/
def word (b : Bracket) (ts : List Token) : List Side :=
  ts.filterMap b.side?

@[simp] theorem word_nil (b : Bracket) : b.word [] = [] := rfl

@[simp] theorem word_append (b : Bracket) (ts us : List Token) :
    b.word (ts ++ us) = b.word ts ++ b.word us :=
  List.filterMap_append

theorem word_cons_of_none (h : b.side? t = none) (ts : List Token) :
    b.word (t :: ts) = b.word ts :=
  List.filterMap_cons_none h

theorem word_cons_of_some {side : Side} (h : b.side? t = some side) (ts : List Token) :
    b.word (t :: ts) = side :: b.word ts :=
  List.filterMap_cons_some h

/-! ## Excess of closers -/

/-- Whether every start of a word has at least as many openers as closers, and the
    whole word has as many. -/
def Balanced (w : List Side) : Prop :=
  (∀ p, p <+: w → p.count .closing ≤ p.count .opening) ∧ w.count .opening = w.count .closing

/-- The largest excess of closers over openers in a start of a word. -/
def largestExcess (w : List Side) : Nat :=
  (w.inits.map fun p => p.count .closing - p.count .opening).foldr max 0

theorem largestExcess_le_iff (w : List Side) (n : Nat) :
    largestExcess w ≤ n ↔ ∀ p, p <+: w → p.count .closing ≤ p.count .opening + n := by
  have hfold : ∀ l : List Nat, l.foldr max 0 ≤ n ↔ ∀ x ∈ l, x ≤ n := by
    intro l
    induction l with
    | nil => simp
    | cons x l ih => rw [List.foldr_cons, Nat.max_le, ih, List.forall_mem_cons]
  simp only [largestExcess, hfold, List.forall_mem_map, List.mem_inits, Nat.sub_le_iff_le_add']

theorem largestExcess_nil : largestExcess [] = 0 := rfl

theorem largestExcess_cons_le_iff (side : Side) (w : List Side) (n : Nat) :
    largestExcess (side :: w) ≤ n ↔
      ∀ p, p <+: w → (side :: p).count .closing ≤ (side :: p).count .opening + n := by
  rw [largestExcess_le_iff]
  constructor
  · intro h p hp
    exact h (side :: p) (List.cons_prefix_cons.2 ⟨rfl, hp⟩)
  · intro h p hp
    rcases List.prefix_cons_iff.1 hp with rfl | ⟨q, rfl, hq⟩
    · exact Nat.zero_le _
    · exact h q hq

theorem largestExcess_opening (w : List Side) :
    largestExcess (.opening :: w) = largestExcess w - 1 := by
  refine eq_of_forall_ge_iff fun n => ?_
  rw [largestExcess_cons_le_iff, Nat.sub_le_iff_le_add, largestExcess_le_iff]
  refine forall₂_congr fun p _ => ?_
  rw [List.count_cons_self, List.count_cons_of_ne (by decide)]
  omega

theorem largestExcess_closing (w : List Side) :
    largestExcess (.closing :: w) = largestExcess w + 1 := by
  refine eq_of_forall_ge_iff fun n => ?_
  rw [largestExcess_cons_le_iff]
  cases n with
  | zero => exact iff_of_false (fun h => absurd (h [] (List.nil_prefix)) (by decide)) (by simp)
  | succ n =>
    rw [Nat.add_le_add_iff_right, largestExcess_le_iff]
    refine forall₂_congr fun p _ => ?_
    rw [List.count_cons_self, List.count_cons_of_ne (by decide)]
    omega

theorem balanced_iff (w : List Side) :
    Balanced w ↔ largestExcess w = 0 ∧ w.count .opening = w.count .closing := by
  rw [← Nat.le_zero, largestExcess_le_iff]
  rfl

/-! ## Partners -/

/-- Whether a closer of the kind `b` among `ts` is the partner of an opener that stands
    right before them. -/
def HasCloser (b : Bracket) (ts : List Token) : Prop :=
  ∃ inside t after, ts = inside ++ t :: after ∧ b.side? t = some .closing ∧
    Balanced (b.word inside)

/-- Whether an opener of the kind `b` among `ts` is the partner of a closer that stands
    right behind them. -/
def HasOpener (b : Bracket) (ts : List Token) : Prop :=
  ∃ before t inside, ts = before ++ t :: inside ∧ b.side? t = some .opening ∧
    Balanced (b.word inside)

theorem HasCloser.append (h : HasCloser b ts) (us : List Token) : HasCloser b (ts ++ us) := by
  obtain ⟨inside, t, after, rfl, hpartner⟩ := h
  exact ⟨inside, t, after ++ us, by simp, hpartner⟩

/-- A further token has the partner of the opener only if it is the partner. -/
theorem HasCloser.of_concat (h : HasCloser b (ts ++ [t])) :
    HasCloser b ts ∨ b.side? t = some .closing ∧ Balanced (b.word ts) := by
  obtain ⟨inside, c, after, heq, hc, hinside⟩ := h
  rcases List.eq_nil_or_concat' after with rfl | ⟨after, d, rfl⟩
  · obtain ⟨rfl, rfl⟩ : ts = inside ∧ t = c := by simpa using List.append_inj' heq rfl
    exact .inr ⟨hc, hinside⟩
  · rw [← List.cons_append, ← List.append_assoc] at heq
    exact .inl ⟨inside, c, after, (List.append_inj' heq rfl).1, hc, hinside⟩

/-- Where closers prevail for the first time, a closer stands behind as many openers as
    closers. -/
theorem closing_of_largestExcess (hzero : largestExcess (b.word ts) = 0)
    (hexcess : largestExcess (b.word (ts ++ [t])) ≠ 0) :
    b.side? t = some .closing ∧ (b.word ts).count .opening = (b.word ts).count .closing := by
  have hstarts := (largestExcess_le_iff _ 0).1 (Nat.le_of_eq hzero)
  cases hside : b.side? t with
  | none =>
    rw [word_append, word_cons_of_none hside, word_nil, List.append_nil] at hexcess
    exact absurd hzero hexcess
  | some side =>
    rw [word_append, word_cons_of_some hside, word_nil, ← Nat.pos_iff_ne_zero, ← Nat.not_le,
      largestExcess_le_iff] at hexcess
    have hwhole : ¬ (b.word ts ++ [side]).count .closing ≤ (b.word ts ++ [side]).count .opening := by
      intro hle
      refine hexcess fun p hp => ?_
      rcases List.prefix_concat_iff.1 hp with rfl | hp
      · exact hle
      · exact hstarts p hp
    have hle := hstarts _ List.prefix_rfl
    cases side with
    | opening => exact absurd hwhole (by simp; omega)
    | closing => exact ⟨rfl, by simp at hwhole; omega⟩

/-- An opener has a partner if and only if closers prevail at some place behind it. -/
theorem hasCloser_iff (b : Bracket) (ts : List Token) :
    HasCloser b ts ↔ largestExcess (b.word ts) ≠ 0 := by
  constructor
  · rintro ⟨inside, t, after, rfl, ht, -, htotals⟩ hzero
    have hle := (largestExcess_le_iff _ 0).1 (Nat.le_of_eq hzero) (b.word inside ++ [.closing])
      (by simp [word_cons_of_some ht])
    rw [List.count_append, List.count_append, htotals] at hle
    exact absurd hle (by simp)
  · intro hexcess
    -- The first place where closers prevail is the partner, so tokens are added at the end.
    induction ts using List.reverseRecOn with
    | nil => exact absurd largestExcess_nil hexcess
    | append_singleton ts t ih =>
      by_cases hzero : largestExcess (b.word ts) = 0
      · obtain ⟨ht, htotals⟩ := closing_of_largestExcess hzero hexcess
        exact ⟨ts, t, [], rfl, ht, (balanced_iff _).2 ⟨hzero, htotals⟩⟩
      · exact (ih hzero).append [t]

instance (b : Bracket) (ts : List Token) : Decidable (HasCloser b ts) :=
  decidable_of_iff _ (hasCloser_iff b ts).symm

/-! ## Openers that are never closed -/

/-- The openers of the kind `b` without a partner, in order. -/
def unclosed (b : Bracket) : List Token → List Token
  | [] => []
  | t :: ts =>
    if b.side? t = some .opening ∧ ¬ HasCloser b ts then t :: unclosed b ts else unclosed b ts

theorem unclosed_cons_of_ne (h : b.side? t ≠ some .opening) (ts : List Token) :
    unclosed b (t :: ts) = unclosed b ts := by
  rw [unclosed, if_neg fun hboth => h hboth.1]

theorem unclosed_cons_of_hasCloser (t : Token) (h : HasCloser b ts) :
    unclosed b (t :: ts) = unclosed b ts := by
  rw [unclosed, if_neg fun hboth => hboth.2 h]

theorem unclosed_cons_of_opening (ht : b.side? t = some .opening) (h : ¬ HasCloser b ts) :
    unclosed b (t :: ts) = t :: unclosed b ts := by
  rw [unclosed, if_pos ⟨ht, h⟩]

theorem exists_of_mem_unclosed (h : t ∈ unclosed b ts) :
    ∃ before after, ts = before ++ t :: after ∧ b.side? t = some .opening ∧
      ¬ HasCloser b after := by
  induction ts with
  | nil => cases h
  | cons u ts ih =>
    by_cases hmem : t ∈ unclosed b ts
    · obtain ⟨before, after, rfl, hunclosed⟩ := ih hmem
      exact ⟨u :: before, after, rfl, hunclosed⟩
    · rw [unclosed] at h
      split at h
      · next hboth =>
        obtain rfl := (List.mem_cons.1 h).resolve_right hmem
        exact ⟨[], ts, rfl, hboth⟩
      · exact absurd h hmem

/-- Openers and the largest excess make up for closers and unclosed openers. -/
theorem count_opening_add_largestExcess (b : Bracket) (ts : List Token) :
    (b.word ts).count .opening + largestExcess (b.word ts) =
      (b.word ts).count .closing + (unclosed b ts).length := by
  induction ts with
  | nil => rfl
  | cons t ts ih =>
    cases hside : b.side? t with
    | none => rwa [word_cons_of_none hside, unclosed_cons_of_ne (by simp [hside])]
    | some side =>
      rw [word_cons_of_some hside]
      cases side with
      | closing =>
        rw [largestExcess_closing, unclosed_cons_of_ne (by simp [hside]), List.count_cons_self,
          List.count_cons_of_ne (by decide)]
        omega
      | opening =>
        rw [largestExcess_opening, List.count_cons_self, List.count_cons_of_ne (by decide)]
        by_cases hcloser : HasCloser b ts
        · have hexcess := (hasCloser_iff b ts).1 hcloser
          rw [unclosed_cons_of_hasCloser t hcloser]
          omega
        · have hexcess := mt (hasCloser_iff b ts).2 hcloser
          rw [unclosed_cons_of_opening hside hcloser, List.length_cons]
          omega

/-- The word of tokens is balanced if and only if closers prevail nowhere and every
    opener is closed. -/
theorem balanced_word_iff (b : Bracket) (ts : List Token) :
    Balanced (b.word ts) ↔ largestExcess (b.word ts) = 0 ∧ unclosed b ts = [] := by
  rw [balanced_iff, ← List.length_eq_zero_iff]
  have hcount := count_opening_add_largestExcess b ts
  omega

theorem hasCloser_concat (h : ¬ HasCloser b ts) (t : Token) :
    HasCloser b (ts ++ [t]) ↔ b.side? t = some .closing ∧ unclosed b ts = [] := by
  have hzero : largestExcess (b.word ts) = 0 := by_contra fun hne => h ((hasCloser_iff b ts).2 hne)
  constructor
  · intro hconcat
    obtain ⟨ht, hbalanced⟩ := hconcat.of_concat.resolve_left h
    exact ⟨ht, ((balanced_word_iff b ts).1 hbalanced).2⟩
  · rintro ⟨ht, hclosed⟩
    exact ⟨ts, t, [], rfl, ht, (balanced_word_iff b ts).2 ⟨hzero, hclosed⟩⟩

/-- A token that is no closer closes no opener. -/
theorem unclosed_concat (ht : b.side? t ≠ some .closing) (ts : List Token) :
    unclosed b (ts ++ [t]) = unclosed b ts ++ unclosed b [t] := by
  induction ts with
  | nil => rfl
  | cons u ts ih =>
    have hsame : HasCloser b (ts ++ [t]) ↔ HasCloser b ts :=
      ⟨fun h => h.of_concat.resolve_right fun hclosing => ht hclosing.1, fun h => h.append [t]⟩
    rw [List.cons_append, unclosed, unclosed, ih]
    simp only [hsame]
    split <;> rfl

theorem unclosed_concat_of_opening (ht : b.side? t = some .opening) (ts : List Token) :
    unclosed b (ts ++ [t]) = unclosed b ts ++ [t] := by
  have hnone : ¬ HasCloser b [] := by simp [hasCloser_iff, largestExcess_nil]
  rw [unclosed_concat (by simp [ht]), unclosed_cons_of_opening ht hnone, unclosed]

/-- A closer closes the last opener that is not closed yet. -/
theorem unclosed_concat_of_closing (ht : b.side? t = some .closing) (ts : List Token) :
    unclosed b (ts ++ [t]) = (unclosed b ts).dropLast := by
  induction ts with
  | nil => exact unclosed_cons_of_ne (by simp [ht]) []
  | cons u ts ih =>
    by_cases hcloser : HasCloser b ts
    · rw [unclosed_cons_of_hasCloser u hcloser, List.cons_append,
        unclosed_cons_of_hasCloser u (hcloser.append [t]), ih]
    by_cases hu : b.side? u = some .opening
    · rw [unclosed_cons_of_opening hu hcloser, List.cons_append]
      -- The opener `u` is the last one left exactly if none behind it is open.
      by_cases hnil : unclosed b ts = []
      · have hpartner : HasCloser b (ts ++ [t]) := (hasCloser_concat hcloser t).2 ⟨ht, hnil⟩
        rw [unclosed_cons_of_hasCloser u hpartner, ih, hnil]
        rfl
      · have hnone : ¬ HasCloser b (ts ++ [t]) := fun h =>
          hnil ((hasCloser_concat hcloser t).1 h).2
        rw [unclosed_cons_of_opening hu hnone, ih, List.dropLast_cons_of_ne_nil hnil]
    · rw [unclosed_cons_of_ne hu, List.cons_append, unclosed_cons_of_ne hu, ih]

/-- A closer has a partner if and only if some opener before it is not closed yet. -/
theorem hasOpener_iff (b : Bracket) (ts : List Token) :
    HasOpener b ts ↔ unclosed b ts ≠ [] := by
  constructor
  · rintro ⟨before, t, inside, rfl, ht, hinside⟩
    have hnone : ¬ HasCloser b inside := by
      rw [hasCloser_iff, not_not]
      exact ((balanced_iff _).1 hinside).1
    induction before with
    | nil => simp [unclosed_cons_of_opening ht hnone]
    | cons u before ih =>
      rw [List.cons_append, unclosed]
      split
      · simp
      · exact ih
  · intro hne
    induction ts with
    | nil => exact absurd rfl hne
    | cons t ts ih =>
      by_cases hnil : unclosed b ts = []
      · rw [unclosed] at hne
        split at hne
        · next hboth =>
          have hzero : largestExcess (b.word ts) = 0 := by
            simpa [hasCloser_iff] using hboth.2
          exact ⟨[], t, ts, rfl, hboth.1, (balanced_word_iff b ts).2 ⟨hzero, hnil⟩⟩
        · exact absurd hnil hne
      · obtain ⟨before, u, inside, rfl, hpartner⟩ := ih hnil
        exact ⟨t :: before, u, inside, rfl, hpartner⟩

instance (b : Bracket) (ts : List Token) : Decidable (HasOpener b ts) :=
  decidable_of_iff _ (hasOpener_iff b ts).symm

/-- The largest excess counts the closers without a partner. -/
theorem largestExcess_word_concat (b : Bracket) (ts : List Token) (t : Token) :
    largestExcess (b.word (ts ++ [t])) =
      largestExcess (b.word ts) +
        if b.side? t = some .closing ∧ ¬ HasOpener b ts then 1 else 0 := by
  have hbefore := count_opening_add_largestExcess b ts
  have hafter := count_opening_add_largestExcess b (ts ++ [t])
  cases hside : b.side? t with
  | none =>
    simp [word_cons_of_none hside]
  | some side =>
    rw [word_append, word_cons_of_some hside, word_nil] at hafter ⊢
    rw [List.count_append, List.count_append] at hafter
    cases side with
    | opening =>
      have hlength : (unclosed b (ts ++ [t])).length = (unclosed b ts).length + 1 := by
        rw [unclosed_concat_of_opening hside]
        exact List.length_append
      have hcounts : [Side.opening].count .opening = 1 ∧ [Side.opening].count .closing = 0 :=
        ⟨rfl, rfl⟩
      rw [if_neg (by simp)]
      omega
    | closing =>
      rw [unclosed_concat_of_closing hside, List.length_dropLast] at hafter
      have hcounts : [Side.closing].count .opening = 0 ∧ [Side.closing].count .closing = 1 :=
        ⟨rfl, rfl⟩
      simp only [hasOpener_iff, not_not, true_and, ← List.length_eq_zero_iff]
      split <;> omega

end Bracket
end BanglaSource
