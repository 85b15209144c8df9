-- SUMMARY: What a stored entry reads back as, and that the key text of a request determines the request.
import BanglaSource.Proofs.JsonCanonical

/-!
# Entries and keys

An entry goes to disk as JSON text. If the text can be read, output and position
map are the ones that were stored. The key of a request is the digest of another
JSON text, and no two requests have the same one.
-/
namespace BanglaSource

open Json (Tree)

/-! ## Records -/

namespace Json.Tree

theorem mapM_eq_some {α β : Type} {f : α → Option β} {g : α → β} {xs : List α}
    (h : ∀ x ∈ xs, f x = some (g x)) : xs.mapM f = some (xs.map g) := by
  induction xs with
  | nil => rfl
  | cons x xs ih =>
    rw [List.forall_mem_cons] at h
    simp [List.mapM_cons, h.1, ih h.2]

theorem unique?_eq_some {fields : Assoc Tree} (h : (fields.map (·.1)).Nodup) :
    ∀ f ∈ fields, unique? fields f.1 = some (some f.2) := by
  induction fields with
  | nil => simp
  | cons g fields ih =>
    rw [List.map_cons, List.nodup_cons] at h
    rw [List.forall_mem_cons]
    constructor
    · have hnone : fields.filter (·.1 = g.1) = [] := by
        rw [List.filter_eq_nil_iff]
        intro f hf heq
        exact h.1 (List.mem_map.2 ⟨f, hf, of_decide_eq_true heq⟩)
      simp [unique?, hnone]
    · intro f hf
      have hne : g.1 ≠ f.1 := fun heq => h.1 (heq ▸ List.mem_map_of_mem hf)
      have hrest := ih h.2 f hf
      simp only [unique?] at hrest ⊢
      rwa [List.filter_cons_of_neg (by simpa using hne)]

theorem ofItems_eq_map (items : List Json) : ofItems items = items.map ofJson := by
  induction items with
  | nil => rfl
  | cons v items ih => rw [ofItems, ih, List.map_cons]

theorem ofFields_eq_map (fields : Assoc Json) :
    ofFields fields = fields.map fun f => (some f.1, ofJson f.2) := by
  induction fields with
  | nil => rfl
  | cons f fields ih => rw [ofFields, ih, List.map_cons]

theorem keyed?_ofFields (fields : Assoc Json) :
    keyed? (ofFields fields) = some (fields.map fun f => (f.1, ofJson f.2)) := by
  rw [ofFields_eq_map, keyed?, List.mapM_map]
  exact mapM_eq_some fun _ _ => rfl

theorem mapM_unique?_ofJson (fields : Assoc Json) (h : (fields.map (·.1)).Nodup) :
    (fields.map (·.1)).mapM (unique? (fields.map fun f => (f.1, ofJson f.2))) =
      some (fields.map fun f => some (ofJson f.2)) := by
  have hkeys : (fields.map fun f => (f.1, ofJson f.2)).map (·.1) = fields.map (·.1) := by
    rw [List.map_map]
    rfl
  have hunique := unique?_eq_some (hkeys ▸ h)
  rw [List.forall_mem_map] at hunique
  rw [List.mapM_map]
  exact mapM_eq_some hunique

/-- A record that was written as an object has the parts that were written. -/
theorem parts?_ofJson (fields : Assoc Json) (h : (fields.map (·.1)).Nodup) (spare : Nat) :
    (ofJson (.obj fields)).parts? (fields.map (·.1)) spare =
      some (fields.map fun f => some (ofJson f.2)) := by
  rw [ofJson, parts?, keyed?_ofFields, Option.bind_eq_bind, Option.bind_some,
    mapM_unique?_ofJson fields h]

theorem nullable?_of_ne_null {α : Type} {t : Tree} (h : t ≠ .null) (read : Tree → Option α) :
    nullable? read t = (read t).map some := by
  cases t with
  | null => exact absurd rfl h
  | _ => rfl

end Json.Tree

/-- The value that is written for one that may be missing. -/
theorem Json.whole_nullable {p : Int → Prop} {map : Option Json} (h : ∀ m ∈ map, m.Whole p) :
    (map.getD .null).canonical.Whole p := by
  cases map with
  | none => exact .null
  | some m => exact (h m rfl).canonical

/-! ## Entries -/

namespace Entry

theorem parts?_toJson (e : Entry) :
    (Tree.ofJson e.toJson).parts? ["output", "position_map", "created_at", "options"] 1 =
      some [some (.str (some e.output)), some (.ofJson (e.positionMap.getD .null).canonical),
        some (.ofJson (.nat e.createdAt)), some (.ofJson e.options.canonical)] :=
  Tree.parts?_ofJson _ (by simp) 1

/-- The values in an entry that may be any JSON. -/
def freeValues (e : Entry) : List Json :=
  e.options :: e.positionMap.toList

theorem whole_freeValues {e : Entry} (hmap : ∀ m ∈ e.positionMap, m.IsMap)
    (hoptions : e.options.Whole Json.Numeral.Fits) :
    ∀ v ∈ e.freeValues, v.Whole fun _ => True := by
  rw [freeValues, List.forall_mem_cons]
  refine ⟨hoptions.mono fun _ _ => trivial, fun m hm => ?_⟩
  exact (hmap m (Option.mem_toList.1 hm)).whole.mono fun _ _ => trivial

/-- The numbers of an entry as it is written, which may hold any creation time. -/
theorem whole_toJson {e : Entry} (h : ∀ v ∈ e.freeValues, v.Whole fun _ => True) :
    e.toJson.Whole fun _ => True := by
  rw [freeValues, List.forall_mem_cons] at h
  have hposition := Json.whole_nullable fun m hm => h.2 m (Option.mem_toList.2 hm)
  refine .obj ?_
  simp only [List.forall_mem_cons]
  exact ⟨.str _, hposition, .int trivial, h.1.canonical, by simp⟩

/-- The position map of an entry is read back, unless it is nested too deeply. -/
theorem nullable?_ofJson {map found : Option Json} (hmap : ∀ m ∈ map, m.IsMap) {depth : Nat}
    (h : (Tree.ofJson (map.getD .null).canonical).nullable? (Tree.free? depth) = some found) :
    found = map := by
  cases map with
  | none => simpa [Json.canonical, Tree.ofJson, Tree.nullable?] using h.symm
  | some m =>
    obtain ⟨hcanonical, hnull, hwhole⟩ := hmap m rfl
    have htree := Tree.ofJson_ne_null hwhole hnull
    rw [Option.getD_some, hcanonical, Tree.nullable?_of_ne_null htree] at h
    obtain ⟨v, hv, rfl⟩ := Option.map_eq_some_iff.1 h
    obtain ⟨w, hw, rfl⟩ := Option.map_eq_some_iff.1 hv
    rw [Tree.value?_ofJson hwhole hw, hcanonical]

/-- An entry file that can be read holds the output and the position map that were
    written. -/
theorem parse?_print {e e' : Entry} (hmap : ∀ m ∈ e.positionMap, m.IsMap)
    (hoptions : e.options.Whole Json.Numeral.Fits) (h : parse? e.print = some e') :
    e'.output = e.output ∧ e'.positionMap = e.positionMap := by
  rw [parse?, print, Tree.parse?_print (whole_toJson (whole_freeValues hmap hoptions)),
    Option.bind_some, ofTree?, parts?_toJson] at h
  simp only [Option.bind_eq_bind, Option.bind_some, Tree.text?, Option.getD_some,
    Option.bind_eq_some_iff, Option.pure_def, Option.some.injEq] at h
  obtain ⟨map, hfound, createdAt, -, options, -, rfl⟩ := h
  exact ⟨rfl, nullable?_ofJson hmap hfound⟩

end Entry

/-! ## Keys -/

namespace Request

/-- The text whose digest is the key of a request. -/
def keyText (r : Request) : Text :=
  ContentKey.text r.source r.keyOptions

theorem canonical_keyOptions (r : Request) : r.keyOptions.canonical = r.keyOptions := by
  cases r <;> rfl

theorem whole_keyOptions (r : Request) (p : Int → Prop) : r.keyOptions.Whole p := by
  cases r with
  | preprocess source keepNames =>
    refine .obj ?_
    simp only [List.forall_mem_cons]
    exact ⟨.bool _, .str _, by simp⟩
  | transpile source file keepNames =>
    refine .obj ?_
    simp only [List.forall_mem_cons]
    exact ⟨.str _, .bool _, .str _, by simp⟩

/-- Requests that differ have different key texts: source, stage, file name and the
    treatment of names all count. -/
theorem keyText_injective {r r' : Request} (h : r.keyText = r'.keyText) : r = r' := by
  have hwhole : ∀ r : Request, (Json.obj [("code", .str r.source),
      ("options", r.keyOptions.canonical)]).Whole fun _ => True := by
    intro r
    refine .obj ?_
    simp only [List.forall_mem_cons]
    exact ⟨.str _, (r.whole_keyOptions _).canonical, by simp⟩
  have htree := congrArg Tree.parse? h
  rw [keyText, keyText, ContentKey.text, ContentKey.text, Tree.parse?_print (hwhole r),
    Tree.parse?_print (hwhole r'), canonical_keyOptions, canonical_keyOptions] at htree
  cases r <;> cases r' <;> simp_all [Tree.ofJson, Tree.ofFields, keyOptions, source]

end Request

end BanglaSource
