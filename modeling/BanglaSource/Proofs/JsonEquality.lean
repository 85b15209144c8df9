-- SUMMARY: Equality of JSON values with objects as finite maps, and the canonical form as its complete invariant.
import BanglaSource.Proofs.JsonCanonical

/-!
# Equal values

Two values are the same if they differ at most in the order in which objects hold
their fields, and in fields that a later one with the same key hides. The
canonical form decides this: values are the same exactly if their canonical forms
are equal.
-/
namespace BanglaSource

/-! ## Finite maps -/

namespace Assoc

variable {α : Type}

/-- The value of the last pair with a key. -/
def findLast? (key : Text) : Assoc α → Option α
  | [] => none
  | (k, v) :: m => (findLast? key m).or (if k = key then some v else none)

theorem mem_of_findLast? {key : Text} {value : α} {m : Assoc α}
    (h : findLast? key m = some value) : ∃ p ∈ m, p.2 = value := by
  induction m with
  | nil => cases h
  | cons p m ih =>
    rw [findLast?, Option.or_eq_some_iff] at h
    rcases h with h | ⟨-, h⟩
    · obtain ⟨q, hq, heq⟩ := ih h
      exact ⟨q, List.mem_cons_of_mem _ hq, heq⟩
    · obtain ⟨-, heq⟩ := Option.ite_none_right_eq_some.1 h
      exact ⟨p, List.mem_cons_self, Option.some.inj heq⟩

theorem find?_eq_none_of_lt {key : Text} {m : Assoc α} (h : ∀ p ∈ m, key < p.1) :
    find? key m = none := by
  simpa [contains] using not_contains_of_lt h

/-- Sorted lists that hold the same under every key are equal. -/
theorem Sorted.ext {m m' : Assoc α} (h : m.Sorted) (h' : m'.Sorted)
    (hfind : ∀ key, find? key m = find? key m') : m = m' := by
  induction m generalizing m' with
  | nil =>
    cases m' with
    | nil => rfl
    | cons p m' => simpa [find?] using hfind p.1
  | cons p m ih =>
    cases m' with
    | nil => simpa [find?] using hfind p.1
    | cons p' m' =>
      obtain ⟨hp, hm⟩ := List.pairwise_cons.1 h
      obtain ⟨hp', hm'⟩ := List.pairwise_cons.1 h'
      -- Neither first key can be smaller: the other list would not hold it.
      have hle : ∀ {q q' : Text × α} {l l' : Assoc α}, (∀ r ∈ l', q'.1 < r.1) →
          find? q.1 (q :: l) = find? q.1 (q' :: l') → ¬ q.1 < q'.1 := by
        intro q q' l l' hl' hq hlt
        have hnone : find? q.1 (q' :: l') = none := find?_eq_none_of_lt fun r hr => by
          rcases List.mem_cons.1 hr with rfl | hr
          · exact hlt
          · exact List.lt_trans hlt (hl' r hr)
        rw [hnone] at hq
        simp [find?] at hq
      have hkey : p.1 = p'.1 := List.le_antisymm
        (List.not_lt.1 (hle hp (hfind p'.1).symm)) (List.not_lt.1 (hle hp' (hfind p.1)))
      have hvalue : p.2 = p'.2 := by simpa [find?, hkey] using hfind p.1
      have htail : m = m' := by
        refine ih hm hm' fun key => ?_
        by_cases heq : p.1 = key
        · subst heq
          rw [find?_eq_none_of_lt hp, find?_eq_none_of_lt (hkey ▸ hp')]
        · simpa [find?, heq, hkey ▸ heq] using hfind key
      rw [htail, Prod.ext hkey hvalue]

end Assoc

namespace Json

/-! ## Induction -/

/-- Induction on values in which the parts of arrays and objects are given by
    membership. -/
@[elab_as_elim]
theorem induction {motive : Json → Prop} (null : motive .null) (bool : ∀ b, motive (.bool b))
    (num : ∀ n, motive (.num n)) (str : ∀ s, motive (.str s))
    (arr : ∀ items, (∀ v ∈ items, motive v) → motive (.arr items))
    (obj : ∀ fields : Assoc Json, (∀ f ∈ fields, motive f.2) → motive (.obj fields)) (v : Json) :
    motive v :=
  @Json.rec motive (fun items => ∀ v ∈ items, motive v) (fun fields => ∀ f ∈ fields, motive f.2)
    (fun f => motive f.2) null bool num str arr obj (by simp)
    (fun _ _ hv hvs => List.forall_mem_cons.2 ⟨hv, hvs⟩) (by simp)
    (fun _ _ hf hfs => List.forall_mem_cons.2 ⟨hf, hfs⟩) (fun _ _ hv => hv) v

/-! ## Decidable equality -/

mutual
def beq : Json → Json → Bool
  | .null, .null => true
  | .bool a, .bool b => a == b
  | .num a, .num b => a == b
  | .str a, .str b => a == b
  | .arr a, .arr b => beqItems a b
  | .obj a, .obj b => beqFields a b
  | _, _ => false

def beqItems : List Json → List Json → Bool
  | [], [] => true
  | v :: vs, w :: ws => beq v w && beqItems vs ws
  | _, _ => false

def beqFields : Assoc Json → Assoc Json → Bool
  | [], [] => true
  | (key, v) :: vs, (key', w) :: ws => key == key' && beq v w && beqFields vs ws
  | _, _ => false
end

theorem beq_iff (v w : Json) : beq v w = true ↔ v = w := by
  induction v using Json.induction generalizing w with
  | null => cases w <;> simp [beq]
  | bool b => cases w <;> simp [beq]
  | num n => cases w <;> simp [beq]
  | str s => cases w <;> simp [beq]
  | arr items ih =>
    cases w with
    | arr items' =>
      rw [beq, Json.arr.injEq]
      induction items generalizing items' with
      | nil => cases items' <;> simp [beqItems]
      | cons v vs ihs =>
        rw [List.forall_mem_cons] at ih
        cases items' with
        | nil => simp [beqItems]
        | cons w ws => simp [beqItems, ih.1, ihs ih.2]
    | _ => simp [beq]
  | obj fields ih =>
    cases w with
    | obj fields' =>
      rw [beq, Json.obj.injEq]
      induction fields generalizing fields' with
      | nil => cases fields' <;> simp [beqFields]
      | cons f fs ihs =>
        rw [List.forall_mem_cons] at ih
        cases fields' with
        | nil => simp [beqFields]
        | cons g gs =>
          simp [beqFields, ih.1, ihs ih.2, Prod.ext_iff]
    | _ => simp [beq]

instance : DecidableEq Json := fun v w => decidable_of_iff _ (beq_iff v w)

/-! ## Sameness -/

/-- Whether two values are the same, objects taken as finite maps. -/
inductive Same : Json → Json → Prop
  | null : Same .null .null
  | bool (b : Bool) : Same (.bool b) (.bool b)
  | num (n : Number) : Same (.num n) (.num n)
  | str (s : Text) : Same (.str s) (.str s)
  | arr {items items' : List Json} :
      items.length = items'.length →
      (∀ (i : Nat) v v', items[i]? = some v → items'[i]? = some v' → Same v v') →
      Same (.arr items) (.arr items')
  | obj {fields fields' : Assoc Json} :
      (∀ key, (Assoc.findLast? key fields).isSome = (Assoc.findLast? key fields').isSome) →
      (∀ key v v', Assoc.findLast? key fields = some v → Assoc.findLast? key fields' = some v' →
        Same v v') →
      Same (.obj fields) (.obj fields')

theorem find?_canonicalFields (key : Text) (fields : Assoc Json) :
    Assoc.find? key (canonicalFields fields) = (Assoc.findLast? key fields).map canonical := by
  induction fields with
  | nil => rfl
  | cons f fields ih =>
    obtain ⟨k, v⟩ := f
    simp only [canonicalFields, Assoc.findLast?]
    split
    · next hcontains =>
      rw [ih]
      split
      · next hkey =>
        subst hkey
        rw [Assoc.contains, ih, Option.isSome_map] at hcontains
        obtain ⟨w, hw⟩ := Option.isSome_iff_exists.1 hcontains
        simp [hw]
      · simp
    · next hcontains =>
      rw [Assoc.find?_insert, ih]
      split
      · next hkey =>
        subst hkey
        rw [Assoc.contains, ih, Option.isSome_map, Option.not_isSome_iff_eq_none] at hcontains
        simp [hcontains]
      · simp

theorem canonical_eq_of_same {v w : Json} (h : v.Same w) : v.canonical = w.canonical := by
  induction h with
  | null => rfl
  | bool b => rfl
  | num n => rfl
  | str s => rfl
  | @arr items items' hlength _ ih =>
    simp only [canonical, canonicalItems_eq_map, Json.arr.injEq]
    refine List.ext_getElem (by simpa using hlength) fun i hi hi' => ?_
    simp only [List.length_map] at hi hi'
    simpa using ih i _ _ (List.getElem?_eq_getElem hi) (List.getElem?_eq_getElem hi')
  | @obj fields fields' hkeys _ ih =>
    simp only [canonical, Json.obj.injEq]
    refine (sorted_canonicalFields _).ext (sorted_canonicalFields _) fun key => ?_
    have hkey := hkeys key
    rw [find?_canonicalFields, find?_canonicalFields]
    cases hv : Assoc.findLast? key fields <;> cases hv' : Assoc.findLast? key fields' <;>
      simp_all
    exact ih key _ _ hv hv'

theorem same_of_canonical_eq {v w : Json} (h : v.canonical = w.canonical) : v.Same w := by
  induction v using Json.induction generalizing w with
  | null => cases w <;> simp [canonical] at h; exact .null
  | bool b => cases w <;> simp [canonical] at h; subst h; exact .bool b
  | num n => cases w <;> simp [canonical] at h; subst h; exact .num n
  | str s => cases w <;> simp [canonical] at h; subst h; exact .str s
  | arr items ih =>
    cases w with
    | arr items' =>
      simp only [canonical, canonicalItems_eq_map, Json.arr.injEq] at h
      refine .arr (by simpa using congrArg List.length h) fun i v v' hv hv' => ?_
      refine ih v (List.mem_of_getElem? hv) ?_
      simpa [hv, hv'] using congrArg (·[i]?) h
    | _ => simp [canonical] at h
  | obj fields ih =>
    cases w with
    | obj fields' =>
      simp only [canonical, Json.obj.injEq] at h
      have hfind : ∀ key, (Assoc.findLast? key fields).map canonical =
          (Assoc.findLast? key fields').map canonical := fun key => by
        rw [← find?_canonicalFields, h, find?_canonicalFields]
      refine .obj (fun key => ?_) fun key v v' hv hv' => ?_
      · simpa using congrArg Option.isSome (hfind key)
      · obtain ⟨f, hf, rfl⟩ := Assoc.mem_of_findLast? hv
        refine ih f hf ?_
        simpa [hv, hv'] using hfind key
    | _ => simp [canonical] at h

/-- Values are the same exactly if their canonical forms are equal. -/
theorem canonical_eq_iff (v w : Json) : v.canonical = w.canonical ↔ v.Same w :=
  ⟨same_of_canonical_eq, canonical_eq_of_same⟩

instance (v w : Json) : Decidable (v.Same w) :=
  decidable_of_iff _ (canonical_eq_iff v w)

end Json
end BanglaSource
