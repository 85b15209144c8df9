-- SUMMARY: Canonical JSON is a normal form, and a whole value that is printed and read is the same value.
import BanglaSource.Pipeline
import BanglaSource.Proofs.JsonText

/-!
# Canonical values

Keys that are sorted and unique stay as they are, so the canonical form of a
canonical value is the value. Position maps are kept in canonical form, and what
is written into them leaves their numbers whole.
-/
namespace BanglaSource

/-! ## Sorted keys -/

namespace Assoc

variable {α : Type}

/-- Whether the keys rise, so that none stands twice. -/
def Sorted (m : Assoc α) : Prop :=
  m.Pairwise (·.1 < ·.1)

theorem mem_insert {key : Text} {value : α} {m : Assoc α} {p : Text × α}
    (h : p ∈ insert key value m) : p = (key, value) ∨ p ∈ m := by
  induction m with
  | nil => exact .inl (List.mem_singleton.1 h)
  | cons q m ih =>
    simp only [insert] at h
    split at h
    · exact (List.mem_cons.1 h).imp_right (List.mem_cons_of_mem _)
    · split at h
      · exact List.mem_cons.1 h
      · rcases List.mem_cons.1 h with rfl | h
        · exact .inr List.mem_cons_self
        · exact (ih h).imp_right (List.mem_cons_of_mem _)

theorem sorted_insert {m : Assoc α} (h : m.Sorted) (key : Text) (value : α) :
    (insert key value m).Sorted := by
  induction m with
  | nil => exact List.pairwise_singleton _ _
  | cons q m ih =>
    obtain ⟨hq, hm⟩ := List.pairwise_cons.1 h
    simp only [insert]
    split
    · next hkey => subst hkey; exact List.pairwise_cons.2 ⟨hq, hm⟩
    · next hkey =>
      split
      · next hlt =>
        refine List.pairwise_cons.2 ⟨fun p hp => ?_, h⟩
        rcases List.mem_cons.1 hp with rfl | hp
        · exact hlt
        · exact List.lt_trans hlt (hq p hp)
      · next hlt =>
        refine List.pairwise_cons.2 ⟨fun p hp => ?_, ih hm⟩
        rcases mem_insert hp with rfl | hp
        · apply Classical.byContradiction
          intro hge
          exact hkey (List.le_antisymm (List.not_lt.1 hlt) (List.not_lt.1 hge))
        · exact hq p hp

theorem not_contains_of_lt {key : Text} {m : Assoc α} (h : ∀ p ∈ m, key < p.1) :
    contains key m = false := by
  induction m with
  | nil => rfl
  | cons q m ih =>
    rw [List.forall_mem_cons] at h
    have hne : q.1 ≠ key := by
      intro heq
      exact List.lt_irrefl key (heq ▸ h.1)
    have htail := ih h.2
    simp only [contains, find?] at htail ⊢
    rwa [if_neg hne]

theorem insert_of_lt {key : Text} {m : Assoc α} (h : ∀ p ∈ m, key < p.1) (value : α) :
    insert key value m = (key, value) :: m := by
  cases m with
  | nil => rfl
  | cons q m =>
    have hlt := h q List.mem_cons_self
    have hne : q.1 ≠ key := by
      intro heq
      exact List.lt_irrefl key (heq ▸ hlt)
    simp [insert, hne, hlt]

end Assoc

namespace Json

/-! ## Canonical form -/

theorem canonicalItems_eq_map (items : List Json) : canonicalItems items = items.map canonical := by
  induction items with
  | nil => rfl
  | cons v vs ih => rw [canonicalItems, ih, List.map_cons]

theorem sorted_canonicalFields (fields : Assoc Json) : (canonicalFields fields).Sorted := by
  induction fields with
  | nil => exact List.Pairwise.nil
  | cons f fields ih =>
    simp only [canonicalFields]
    split
    · exact ih
    · exact Assoc.sorted_insert ih _ _

theorem mem_canonicalFields {fields : Assoc Json} {p : Text × Json}
    (h : p ∈ canonicalFields fields) : ∃ f ∈ fields, p.2 = f.2.canonical := by
  induction fields with
  | nil => simp [canonicalFields] at h
  | cons f fields ih =>
    have hlater : p ∈ canonicalFields fields → ∃ g ∈ f :: fields, p.2 = g.2.canonical := fun h =>
      let ⟨g, hg, heq⟩ := ih h
      ⟨g, List.mem_cons_of_mem _ hg, heq⟩
    simp only [canonicalFields] at h
    split at h
    · exact hlater h
    · rcases Assoc.mem_insert h with rfl | h
      · exact ⟨f, List.mem_cons_self, rfl⟩
      · exact hlater h

/-- Sorted fields with canonical values are canonical. -/
theorem canonicalFields_eq_self {fields : Assoc Json} (hsorted : fields.Sorted)
    (hvalues : ∀ f ∈ fields, f.2.canonical = f.2) : canonicalFields fields = fields := by
  induction fields with
  | nil => rfl
  | cons f fields ih =>
    obtain ⟨hf, hfields⟩ := List.pairwise_cons.1 hsorted
    rw [List.forall_mem_cons] at hvalues
    obtain ⟨key, v⟩ := f
    simp only [canonicalFields, ih hfields hvalues.2, Assoc.not_contains_of_lt hf,
      Assoc.insert_of_lt hf, hvalues.1, Bool.false_eq_true, if_false]

mutual
theorem canonical_canonical : ∀ v : Json, v.canonical.canonical = v.canonical
  | .null | .bool _ | .num _ | .str _ => by simp only [canonical]
  | .arr items => by
    have hitems : (items.map canonical).map canonical = items.map canonical := by
      rw [List.map_map, List.map_inj_left]
      exact canonical_canonical_items items
    simp only [canonical, canonicalItems_eq_map, hitems]
  | .obj fields => by
    have hvalues : ∀ p ∈ canonicalFields fields, p.2.canonical = p.2 := by
      intro p hp
      obtain ⟨f, hf, heq⟩ := mem_canonicalFields hp
      rw [heq]
      exact canonical_canonical_fields fields f hf
    simp only [canonical]
    rw [canonicalFields_eq_self (sorted_canonicalFields fields) hvalues]

theorem canonical_canonical_items : ∀ (items : List Json), ∀ v ∈ items,
    v.canonical.canonical = v.canonical
  | [] => by simp
  | v :: vs => by
    rw [List.forall_mem_cons]
    exact ⟨canonical_canonical v, canonical_canonical_items vs⟩

theorem canonical_canonical_fields : ∀ (fields : Assoc Json), ∀ f ∈ fields,
    f.2.canonical.canonical = f.2.canonical
  | [] => by simp
  | (_, v) :: fields => by
    rw [List.forall_mem_cons]
    exact ⟨canonical_canonical v, canonical_canonical_fields fields⟩
end

theorem canonical_eq_null {v : Json} (h : v.canonical = .null) : v = .null := by
  cases v <;> simp_all [canonical]

/-! ## Whole numbers -/

variable {p : Int → Prop}

theorem Whole.mono {q : Int → Prop} (hpq : ∀ i, p i → q i) {v : Json} (h : Whole p v) :
    Whole q v := by
  induction h with
  | null => exact .null
  | bool b => exact .bool b
  | int hi => exact .int (hpq _ hi)
  | str s => exact .str s
  | arr _ ih => exact .arr ih
  | obj _ ih => exact .obj ih

theorem Whole.canonical {v : Json} (h : Whole p v) : Whole p v.canonical := by
  induction h with
  | null => exact .null
  | bool b => exact .bool b
  | int hi => exact .int hi
  | str s => exact .str s
  | arr _ ih =>
    simp only [Json.canonical, canonicalItems_eq_map]
    apply Whole.arr
    intro w hw
    obtain ⟨v, hv, rfl⟩ := List.mem_map.1 hw
    exact ih v hv
  | obj _ ih =>
    apply Whole.obj
    intro q hq
    obtain ⟨f, hf, heq⟩ := mem_canonicalFields hq
    rw [heq]
    exact ih f hf

theorem Whole.setField {v field : Json} (h : Whole p v) (hfield : Whole p field) (key : Text) :
    Whole p (Backend.setField key field v) := by
  cases h with
  | obj hfields =>
    apply Whole.obj
    intro f hf
    rcases Assoc.mem_insert hf with rfl | hf
    · exact hfield
    · exact hfields f hf
  | null => exact .null
  | bool b => exact .bool b
  | int hi => exact .int hi
  | str s => exact .str s
  | arr hitems => exact .arr hitems

/-! ## Values of trees -/

namespace Tree

theorem values?_ofItems {items : List Json} {depth : Nat}
    (h : ∀ v ∈ items, ∀ w, value? depth (ofJson v) = some w → w = v) {ws : List Json}
    (hws : values? depth (ofItems items) = some ws) : ws = items := by
  induction items generalizing ws with
  | nil => simpa [ofItems, values?] using hws.symm
  | cons v vs ih =>
    rw [List.forall_mem_cons] at h
    simp only [ofItems, values?, Option.bind_eq_bind, Option.bind_eq_some_iff, Option.pure_def,
      Option.some.injEq] at hws
    obtain ⟨w, hw, ws, htail, rfl⟩ := hws
    rw [h.1 w hw, ih h.2 htail]

theorem fieldValues?_ofFields {fields : Assoc Json} {depth : Nat}
    (h : ∀ f ∈ fields, ∀ w, value? depth (ofJson f.2) = some w → w = f.2) {ws : Assoc Json}
    (hws : fieldValues? depth (ofFields fields) = some ws) : ws = fields := by
  induction fields generalizing ws with
  | nil => simpa [ofFields, fieldValues?] using hws.symm
  | cons f fields ih =>
    rw [List.forall_mem_cons] at h
    simp only [ofFields, fieldValues?, Option.bind_eq_bind, Option.bind_eq_some_iff,
      Option.pure_def, Option.some.injEq, exists_eq_left'] at hws
    obtain ⟨w, hw, ws, htail, rfl⟩ := hws
    rw [h.1 w hw, ih h.2 htail]

/-- The tree of a value has no other value. It has none if it is nested too deeply. -/
theorem value?_ofJson {v : Json} (h : Whole Numeral.Fits v) {depth : Nat} {w : Json}
    (hw : value? depth (ofJson v) = some w) : w = v := by
  induction h generalizing depth w with
  | null => simpa [ofJson, value?] using hw.symm
  | bool b => simpa [ofJson, value?] using hw.symm
  | int hi => simpa [ofJson, value?, Numeral.number?_ofInt hi] using hw.symm
  | str s => simpa [ofJson, value?] using hw.symm
  | arr _ ih =>
    cases depth with
    | zero => simp [ofJson, value?] at hw
    | succ depth =>
      obtain ⟨ws, hws, rfl⟩ := Option.map_eq_some_iff.1 hw
      rw [values?_ofItems (fun v hv w => ih v hv) hws]
  | obj _ ih =>
    cases depth with
    | zero => simp [ofJson, value?] at hw
    | succ depth =>
      obtain ⟨ws, hws, rfl⟩ := Option.map_eq_some_iff.1 hw
      rw [fieldValues?_ofFields (fun f hf w => ih f hf) hws]

theorem ofJson_ne_null {v : Json} (h : Whole p v) (hv : v ≠ .null) : ofJson v ≠ .null := by
  cases h <;> simp_all [ofJson]

end Tree
end Json

/-! ## Position maps -/

/-- Position maps that survive being stored: canonical, not null, and with numbers
    of 64 bits only. -/
structure Json.IsMap (m : Json) : Prop where
  canonical : m.canonical = m
  ne_null : m ≠ .null
  whole : m.Whole Json.Numeral.Fits

theorem Pipeline.isMap_attachSource {m : Json} (hnull : m ≠ .null)
    (hwhole : m.Whole Json.Numeral.Fits) (source : Text) :
    (attachSource source m).IsMap where
  canonical := Json.canonical_canonical _
  ne_null := by
    intro h
    have hset := Json.canonical_eq_null h
    have hcanonical : m.canonical = .null := by
      cases hm : m.canonical <;> simp_all [Backend.setField]
    exact hnull (Json.canonical_eq_null hcanonical)
  whole := by
    have hsource : (Json.arr [.str source]).Whole Json.Numeral.Fits :=
      .arr (by simpa using .str source)
    exact (hwhole.canonical.setField hsource _).canonical

end BanglaSource
