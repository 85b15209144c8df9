-- SUMMARY: Values of whole numbers within the nesting limit are read back, and so is every entry made of them.
import BanglaSource.Proofs.CacheEntries
import BanglaSource.Proofs.JsonEquality
import Mathlib.Algebra.Group.Nat.Defs

/-!
# Entries that can be stored

Reading a text refuses values that are nested too deeply. Within that limit a value
of whole numbers is read back as it was printed. An entry whose position map and
options are such values, with a position map that is not null, is read back as a
whole from its file.
-/
namespace BanglaSource

open Json (Tree)

namespace Json

/-! ## Nesting -/

mutual
/-- How deeply arrays and objects are nested. -/
def depth : Json → Nat
  | .arr items => depthItems items + 1
  | .obj fields => depthFields fields + 1
  | _ => 0

def depthItems : List Json → Nat
  | [] => 0
  | v :: vs => max (depth v) (depthItems vs)

def depthFields : Assoc Json → Nat
  | [] => 0
  | (_, v) :: fields => max (depth v) (depthFields fields)
end

theorem depthItems_le_iff {items : List Json} {n : Nat} :
    depthItems items ≤ n ↔ ∀ v ∈ items, v.depth ≤ n := by
  induction items with
  | nil => simp [depthItems]
  | cons v vs ih => rw [depthItems, Nat.max_le, ih, List.forall_mem_cons]

theorem depthFields_le_iff {fields : Assoc Json} {n : Nat} :
    depthFields fields ≤ n ↔ ∀ f ∈ fields, f.2.depth ≤ n := by
  induction fields with
  | nil => simp [depthFields]
  | cons f fields ih => rw [depthFields, Nat.max_le, ih, List.forall_mem_cons]

/-- Canonical form drops hidden fields and nests nothing deeper. -/
theorem depth_canonical_le (v : Json) : v.canonical.depth ≤ v.depth := by
  induction v using Json.induction with
  | arr items ih =>
    have hitems := depthItems_le_iff.1 (Nat.le_refl (depthItems items))
    simp only [canonical, canonicalItems_eq_map, depth]
    refine Nat.succ_le_succ (depthItems_le_iff.2 fun w hw => ?_)
    obtain ⟨v, hv, rfl⟩ := List.mem_map.1 hw
    exact Nat.le_trans (ih v hv) (hitems v hv)
  | obj fields ih =>
    have hfields := depthFields_le_iff.1 (Nat.le_refl (depthFields fields))
    simp only [canonical, depth]
    refine Nat.succ_le_succ (depthFields_le_iff.2 fun p hp => ?_)
    obtain ⟨f, hf, heq⟩ := mem_canonicalFields hp
    rw [heq]
    exact Nat.le_trans (ih f hf) (hfields f hf)
  | _ => exact Nat.le_refl _

namespace Tree

theorem values?_eq_some {items : List Json} {n : Nat}
    (h : ∀ v ∈ items, value? n (ofJson v) = some v) : values? n (ofItems items) = some items := by
  induction items with
  | nil => rfl
  | cons v vs ih =>
    rw [List.forall_mem_cons] at h
    simp [ofItems, values?, h.1, ih h.2]

theorem fieldValues?_eq_some {fields : Assoc Json} {n : Nat}
    (h : ∀ f ∈ fields, value? n (ofJson f.2) = some f.2) :
    fieldValues? n (ofFields fields) = some fields := by
  induction fields with
  | nil => rfl
  | cons f fields ih =>
    rw [List.forall_mem_cons] at h
    simp [ofFields, fieldValues?, h.1, ih h.2]

/-- A tree that is not nested too deeply has the value that was printed. -/
theorem value?_eq_some {v : Json} (h : Whole Numeral.Fits v) {n : Nat} (hn : v.depth ≤ n) :
    value? n (ofJson v) = some v := by
  induction h generalizing n with
  | null => rfl
  | bool b => rfl
  | int hi => simp [ofJson, value?, Numeral.number?_ofInt hi]
  | str s => rfl
  | @arr items _ ih =>
    cases n with
    | zero => simp [depth] at hn
    | succ n =>
      have hitems := depthItems_le_iff.1 (Nat.le_of_succ_le_succ hn)
      simp [ofJson, value?, values?_eq_some fun v hv => ih v hv (hitems v hv)]
  | @obj fields _ ih =>
    cases n with
    | zero => simp [depth] at hn
    | succ n =>
      have hfields := depthFields_le_iff.1 (Nat.le_of_succ_le_succ hn)
      simp [ofJson, value?, fieldValues?_eq_some fun f hf => ih f hf (hfields f hf)]

end Tree

/-! ## Values inside an entry -/

/-- Values that survive being stored inside an entry: numbers of 64 bits only, and
    nested so that the text of the entry stays within the limit. -/
structure Storable (v : Json) : Prop where
  whole : v.Whole Numeral.Fits
  depth_le : v.depth ≤ Tree.maxDepth - 1

theorem Storable.canonical {v : Json} (h : v.Storable) : v.canonical.Storable where
  whole := h.whole.canonical
  depth_le := Nat.le_trans v.depth_canonical_le h.depth_le

namespace Tree

theorem nat?_ofJson {bits n : Nat} (hbits : bits ≤ 64) (h : n < 2 ^ bits) :
    (ofJson (.nat n)).nat? bits = some n := by
  have hle : 2 ^ bits ≤ 2 ^ 64 := Nat.pow_le_pow_right (by decide) hbits
  have hfits : Numeral.Fits (n : Int) := ⟨by omega, by omega⟩
  simp [Json.nat, ofJson, nat?, Numeral.number?_ofInt hfits, h]

end Tree

theorem Storable.free?_ofJson {v : Json} (h : v.Storable) (hcanonical : v.canonical = v) :
    Tree.free? (Tree.maxDepth - 1) (Tree.ofJson v.canonical) = some v := by
  rw [hcanonical, Tree.free?, Tree.value?_eq_some h.whole h.depth_le, Option.map_some, hcanonical]

/-- A value that may be missing is read back, unless it is there and null. -/
theorem Tree.nullable?_ofJson {map : Option Json}
    (h : ∀ m ∈ map, m.Storable ∧ m.canonical = m) :
    (ofJson (map.getD .null).canonical).nullable? (free? (maxDepth - 1)) =
      some (map.filter (· ≠ .null)) := by
  cases map with
  | none => rfl
  | some m =>
    obtain ⟨hstorable, hcanonical⟩ := h m rfl
    by_cases hnull : m = .null
    · subst hnull
      rfl
    · have htree := ofJson_ne_null hstorable.canonical.whole fun h => hnull (canonical_eq_null h)
      rw [Option.getD_some, nullable?_of_ne_null htree, hstorable.free?_ofJson hcanonical]
      simp [Option.filter, hnull]

end Json

/-! ## Entries -/

namespace Entry

/-- Entries that survive being stored. -/
structure Storable (e : Entry) : Prop where
  map : ∀ m ∈ e.positionMap, m.IsMap ∧ m.Storable
  options : e.options.Storable
  canonical_options : e.options.canonical = e.options
  createdAt_lt : e.createdAt < 2 ^ 64

theorem storable_new {now : Nat} {options : Json} {map : Option Json} (hnow : now < 2 ^ 64)
    (hoptions : options.Storable) (hmap : ∀ m ∈ map, m ≠ .null ∧ m.Storable) (output : Text) :
    (Entry.new now options output map).Storable where
  map m hm := by
    obtain ⟨m₀, hm₀, rfl⟩ := Option.map_eq_some_iff.1 hm
    obtain ⟨hnull, hstorable⟩ := hmap m₀ hm₀
    exact ⟨⟨Json.canonical_canonical _, fun h => hnull (Json.canonical_eq_null h),
      hstorable.whole.canonical⟩, hstorable.canonical⟩
  options := hoptions.canonical
  canonical_options := Json.canonical_canonical _
  createdAt_lt := hnow

/-- An entry is read back from what is written for it, apart from a position map that
    is null. -/
theorem ofTree?_ofJson {e : Entry} (htime : e.createdAt < 2 ^ 64)
    (hfree : ∀ v ∈ e.freeValues, v.Storable ∧ v.canonical = v) :
    ofTree? (.ofJson e.toJson) =
      some { e with positionMap := e.positionMap.filter (· ≠ .null) } := by
  rw [freeValues, List.forall_mem_cons] at hfree
  obtain ⟨⟨hoptions, hcanonical⟩, hmap⟩ := hfree
  have hposition := Tree.nullable?_ofJson fun m hm => hmap m (Option.mem_toList.2 hm)
  rw [ofTree?, parts?_toJson]
  simp [Tree.text?, hposition, Tree.nat?_ofJson (Nat.le_refl 64) htime,
    hoptions.free?_ofJson hcanonical]

/-- An entry that can be stored is read back from its file, with all its parts. -/
theorem Storable.parse?_print {e : Entry} (h : e.Storable) : parse? e.print = some e := by
  have hwhole := whole_toJson (whole_freeValues (fun m hm => (h.map m hm).1) h.options.whole)
  have hfree : ∀ v ∈ e.freeValues, v.Storable ∧ v.canonical = v := by
    rw [freeValues, List.forall_mem_cons]
    refine ⟨⟨h.options, h.canonical_options⟩, fun m hm => ?_⟩
    obtain ⟨hmap, hstorable⟩ := h.map m (Option.mem_toList.1 hm)
    exact ⟨hstorable, hmap.canonical⟩
  have hkept : e.positionMap.filter (· ≠ .null) = e.positionMap := by
    cases hm : e.positionMap with
    | none => rfl
    | some m => simp [Option.filter, (h.map m hm).1.ne_null]
  rw [parse?, print, Tree.parse?_print hwhole, Option.bind_some,
    ofTree?_ofJson h.createdAt_lt hfree, hkept]

end Entry
end BanglaSource
