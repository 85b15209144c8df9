-- SUMMARY: What readers of JSON text guarantee: bounds on numbers and on nesting, and the canonical form.
import BanglaSource.Proofs.EntryRoundTrip

/-!
# What is read

Whatever a text looks like, the free values that are read from it are in canonical
form, are not nested too deeply, and have no whole number beyond 64 bits. Numbers
that are read with a bound stay within it.
-/
namespace BanglaSource.Json

/-! ## Numbers -/

namespace Numeral

theorem accumulate_lt {n : Nat} (h : n < 0x10000000000000000) (s : Text) :
    (accumulate n s).1 < 0x10000000000000000 := by
  induction s generalizing n with
  | nil => exact h
  | cons c s ih =>
    rw [accumulate]
    split
    · next hnext => exact ih hnext
    · exact h

theorem fits_of_int? {negative : Bool} {magnitude : Nat} {i : Int}
    (h : int? negative magnitude = some i) (hlt : magnitude < 0x10000000000000000) : Fits i := by
  simp only [int?] at h
  split at h
  · split at h
    · cases h
    · next hbounds =>
      cases h
      simp only [Bool.or_eq_true, decide_eq_true_eq, not_or] at hbounds
      exact ⟨by omega, by omega⟩
  · cases h
    exact ⟨by omega, by omega⟩

/-- Whole numbers that are read fit into 64 bits. Longer numerals denote
    floating-point numbers. -/
theorem fits_of_number? {n : Numeral} {i : Int} (h : n.number? = some (.int i)) : Fits i := by
  have hfloat : ∀ (x : Option Float) (sign : Float → Float),
      (x.map fun x => Number.float (sign x).toBits) ≠ some (.int i) := by
    intro x sign
    cases x <;> simp
  simp only [number?] at h
  split at h
  · split at h
    · next hint =>
      obtain ⟨-, hint⟩ := Option.ite_none_right_eq_some.1 hint
      cases h
      exact fits_of_int? hint (accumulate_lt (by decide) _)
    · exact absurd h (hfloat _ _)
  · split at h
    · exact absurd h (hfloat _ _)
    · exact absurd h (hfloat _ _)

end Numeral

namespace Tree

theorem lt_of_nat? {bits n : Nat} {t : Tree} (h : t.nat? bits = some n) : n < 2 ^ bits := by
  unfold nat? at h
  split at h
  · split at h
    · obtain ⟨hlt, heq⟩ := Option.ite_none_right_eq_some.1 h
      cases heq
      exact hlt
    · cases h
  · cases h

theorem exists_of_mapM {α β : Type} {read : α → Option β} {xs : List α} {ys : List β}
    (h : xs.mapM read = some ys) : ∀ y ∈ ys, ∃ x, read x = some y := by
  induction xs generalizing ys with
  | nil => cases h; simp
  | cons x xs ih =>
    simp only [List.mapM_cons, Option.bind_eq_bind, Option.bind_eq_some_iff, Option.pure_def,
      Option.some.injEq] at h
    obtain ⟨y, hy, ys, hys, rfl⟩ := h
    exact List.forall_mem_cons.2 ⟨⟨x, hy⟩, ih hys⟩

/-! ## Values -/

theorem exists_value?_of_values? {n : Nat} {ts : List Tree} {vs : List Json}
    (h : values? n ts = some vs) : ∀ v ∈ vs, ∃ t, value? n t = some v := by
  induction ts generalizing vs with
  | nil => cases h; simp
  | cons t ts ih =>
    simp only [values?, Option.bind_eq_bind, Option.bind_eq_some_iff, Option.pure_def,
      Option.some.injEq] at h
    obtain ⟨v, hv, vs, hvs, rfl⟩ := h
    exact List.forall_mem_cons.2 ⟨⟨t, hv⟩, ih hvs⟩

theorem exists_value?_of_fieldValues? {n : Nat} {ts : List (Option Text × Tree)}
    {fields : Assoc Json} (h : fieldValues? n ts = some fields) :
    ∀ f ∈ fields, ∃ t, value? n t = some f.2 := by
  induction ts generalizing fields with
  | nil => cases h; simp
  | cons t ts ih =>
    simp only [fieldValues?, Option.bind_eq_bind, Option.bind_eq_some_iff, Option.pure_def,
      Option.some.injEq] at h
    obtain ⟨key, -, v, hv, fields, hfields, rfl⟩ := h
    exact List.forall_mem_cons.2 ⟨⟨t.2, hv⟩, ih hfields⟩

/-- What a tree with a value says about the value. -/
theorem value?_cases {n : Nat} {t : Tree} {v : Json} (h : value? n t = some v) :
    match v with
    | .null => t = .null
    | .num (.int i) => Numeral.Fits i
    | .arr items => ∃ m, n = m + 1 ∧ ∀ v ∈ items, ∃ t, value? m t = some v
    | .obj fields => ∃ m, n = m + 1 ∧ ∀ f ∈ fields, ∃ t, value? m t = some f.2
    | _ => True := by
  cases t with
  | null => cases h; rfl
  | bool b => cases h; trivial
  | num numeral =>
    obtain ⟨number, hnumber, rfl⟩ := Option.map_eq_some_iff.1 h
    cases number with
    | int i => exact Numeral.fits_of_number? hnumber
    | float bits => trivial
  | str s =>
    obtain ⟨s, -, rfl⟩ := Option.map_eq_some_iff.1 h
    trivial
  | arr items =>
    cases n with
    | zero => cases h
    | succ m =>
      obtain ⟨vs, hvs, rfl⟩ := Option.map_eq_some_iff.1 h
      exact ⟨m, rfl, exists_value?_of_values? hvs⟩
  | obj fields =>
    cases n with
    | zero => cases h
    | succ m =>
      obtain ⟨vs, hvs, rfl⟩ := Option.map_eq_some_iff.1 h
      exact ⟨m, rfl, exists_value?_of_fieldValues? hvs⟩

theorem depth_le_of_value? {n : Nat} {t : Tree} {v : Json} (h : value? n t = some v) :
    v.depth ≤ n := by
  induction v using Json.induction generalizing n t with
  | arr items ih =>
    obtain ⟨m, rfl, hitems⟩ := value?_cases h
    refine Nat.succ_le_succ (depthItems_le_iff.2 fun v hv => ?_)
    obtain ⟨t, ht⟩ := hitems v hv
    exact ih v hv ht
  | obj fields ih =>
    obtain ⟨m, rfl, hfields⟩ := value?_cases h
    refine Nat.succ_le_succ (depthFields_le_iff.2 fun f hf => ?_)
    obtain ⟨t, ht⟩ := hfields f hf
    exact ih f hf ht
  | _ => exact Nat.zero_le n

/-- If the canonical form of a value that was read has no floating-point number, its
    numbers fit into 64 bits. Fields that others hide may hold anything. -/
theorem whole_canonical_of_value? {n : Nat} {t : Tree} {v : Json} (h : value? n t = some v)
    (hwhole : v.canonical.Whole fun _ => True) : v.canonical.Whole Numeral.Fits := by
  induction v using Json.induction generalizing n t with
  | null => exact .null
  | bool b => exact .bool b
  | num number =>
    cases number with
    | int i => exact .int (value?_cases h)
    | float bits => cases hwhole
  | str s => exact .str s
  | arr items ih =>
    obtain ⟨m, rfl, hitems⟩ := value?_cases h
    simp only [canonical, canonicalItems_eq_map] at hwhole ⊢
    cases hwhole with
    | arr hwhole =>
      refine .arr fun w hw => ?_
      obtain ⟨v, hv, rfl⟩ := List.mem_map.1 hw
      obtain ⟨t, ht⟩ := hitems v hv
      exact ih v hv ht (hwhole _ hw)
  | obj fields ih =>
    obtain ⟨m, rfl, hfields⟩ := value?_cases h
    simp only [canonical] at hwhole ⊢
    cases hwhole with
    | obj hwhole =>
      -- Only fields that are left count; the others may hold floating-point numbers.
      refine .obj fun p hp => ?_
      obtain ⟨f, hf, heq⟩ := mem_canonicalFields hp
      obtain ⟨t, ht⟩ := hfields f hf
      rw [heq]
      exact ih f hf ht (heq ▸ hwhole p hp)

end Tree

/-! ## Free values -/

/-- What holds of every free value that is read. -/
structure Decoded (v : Json) : Prop where
  canonical : v.canonical = v
  depth_le : v.depth ≤ Tree.maxDepth - 1
  fits : (v.Whole fun _ => True) → v.Whole Numeral.Fits

theorem Decoded.storable {v : Json} (h : v.Decoded) (hwhole : v.Whole fun _ => True) :
    v.Storable where
  whole := h.fits hwhole
  depth_le := h.depth_le

namespace Tree

theorem decoded_of_free? {t : Tree} {v : Json} (h : free? (maxDepth - 1) t = some v) :
    v.Decoded := by
  obtain ⟨w, hw, rfl⟩ := Option.map_eq_some_iff.1 h
  exact ⟨canonical_canonical w, Nat.le_trans w.depth_canonical_le (depth_le_of_value? hw),
    whole_canonical_of_value? hw⟩

/-- A free value that may be null is never read as a null that is there. -/
theorem decoded_of_nullable? {t : Tree} {map : Option Json}
    (h : t.nullable? (free? (maxDepth - 1)) = some map) :
    (∀ m ∈ map, m.Decoded) ∧ map.filter (· ≠ .null) = map := by
  by_cases hnull : t = .null
  · subst hnull
    cases h
    exact ⟨by simp, rfl⟩
  · rw [nullable?_of_ne_null hnull] at h
    obtain ⟨m, hm, rfl⟩ := Option.map_eq_some_iff.1 h
    refine ⟨fun _ heq => Option.some.inj heq ▸ decoded_of_free? hm, ?_⟩
    have hne : m ≠ .null := by
      obtain ⟨w, hw, rfl⟩ := Option.map_eq_some_iff.1 hm
      intro heq
      rw [canonical_eq_null heq] at hw
      exact hnull (value?_cases hw)
    simp [Option.filter, hne]

end Tree
end BanglaSource.Json
