-- SUMMARY: Every persisted type is read back from what is written for it, and what is read is written in one way.
import BanglaSource.Format.Diagnostic
import BanglaSource.Format.Options
import BanglaSource.Format.Statistics
import BanglaSource.Proofs.JsonDecoding

/-!
# Formats

Readers accept more than is ever written: arrays of fields, any order of keys,
unknown fields, missing optional ones. Still they undo writing, and writing what
was read gives a text that is read as the same value. A format is faithful if it
reads back what it writes for values in range, and if all that it reads is in
range.
-/
namespace BanglaSource

open Json (Tree)

/-! ## Faithful formats -/

/-- The JSON form of a type: how its values are written and how they are read. -/
structure Format (α : Type) where
  toJson : α → Json
  ofTree? : Tree → Option α

namespace Format

variable {α : Type}

def write (f : Format α) (v : α) : Text :=
  (f.toJson v).print

def read? (f : Format α) (s : Text) : Option α :=
  (Tree.parse? s).bind f.ofTree?

/-- Whether writing and reading undo each other. The values `free v` inside `v` may be
    any JSON, and `kept v` is what is left of `v`. -/
structure RoundTrips (f : Format α) (InRange : α → Prop) (free : α → List Json)
    (kept : α → α) : Prop where
  /-- A value in range is read back. -/
  read_write : ∀ v, InRange v → (∀ w ∈ free v, w.Storable ∧ w.canonical = w) →
    f.read? (f.write v) = some (kept v)
  /-- A value that was read is read back from what is then written, as the same value
      and with the same text. -/
  write_read : ∀ s v, f.read? s = some v → (∀ w ∈ free v, w.Whole fun _ => True) →
    f.read? (f.write v) = some v ∧ (f.read? (f.write v)).map f.write = some (f.write v)

/-- It is enough to look at trees: those of values in range are read, and what is read
    is in range. -/
theorem roundTrips_of_trees {f : Format α} {InRange : α → Prop} {free : α → List Json}
    {kept : α → α}
    (hwhole : ∀ v, (∀ w ∈ free v, w.Whole fun _ => True) → (f.toJson v).Whole fun _ => True)
    (hread : ∀ v, InRange v → (∀ w ∈ free v, w.Storable ∧ w.canonical = w) →
      f.ofTree? (.ofJson (f.toJson v)) = some (kept v))
    (hdecoded : ∀ t v, f.ofTree? t = some v →
      InRange v ∧ kept v = v ∧ ∀ w ∈ free v, w.Decoded) :
    f.RoundTrips InRange free kept := by
  have hwrite : ∀ v, InRange v → (∀ w ∈ free v, w.Storable ∧ w.canonical = w) →
      f.read? (f.write v) = some (kept v) := by
    intro v hrange hfree
    have htree := hwhole v fun w hw => (hfree w hw).1.whole.mono fun _ _ => trivial
    rw [read?, write, Tree.parse?_print htree, Option.bind_some, hread v hrange hfree]
  refine ⟨hwrite, fun s v hs hfree => ?_⟩
  -- What was read is in range and loses nothing, so it falls under the first law.
  obtain ⟨t, -, ht⟩ := Option.bind_eq_some_iff.1 hs
  obtain ⟨hrange, hkept, hvalues⟩ := hdecoded t v ht
  have hback : f.read? (f.write v) = some v := by
    rw [hwrite v hrange, hkept]
    exact fun w hw => ⟨(hvalues w hw).storable (hfree w hw), (hvalues w hw).canonical⟩
  exact ⟨hback, by rw [hback, Option.map_some]⟩

/-- The same for types without free values. -/
theorem roundTrips_of_plain {f : Format α} {InRange : α → Prop}
    (hwhole : ∀ v, (f.toJson v).Whole fun _ => True)
    (hread : ∀ v, InRange v → f.ofTree? (.ofJson (f.toJson v)) = some v)
    (hdecoded : ∀ t v, f.ofTree? t = some v → InRange v) :
    f.RoundTrips InRange (fun _ => []) id :=
  roundTrips_of_trees (fun v _ => hwhole v) (fun v h _ => hread v h)
    fun t v h => ⟨hdecoded t v h, rfl, by simp⟩

end Format

/-! ## Spans -/

namespace Span

def format : Format Span := ⟨toJson, ofTree?⟩

/-- Spans whose lines and columns are numbers of 32 bits. -/
def InRange (s : Span) : Prop :=
  s.startLine < 2 ^ 32 ∧ s.startColumn < 2 ^ 32 ∧ s.endLine < 2 ^ 32 ∧ s.endColumn < 2 ^ 32

theorem whole_toFields (s : Span) : ∀ f ∈ s.toFields, f.2.Whole fun _ => True := by
  simp only [toFields, List.forall_mem_cons]
  exact ⟨.int trivial, .int trivial, .int trivial, .int trivial, by simp⟩

theorem nodup_toFields (s : Span) : (s.toFields.map (·.1)).Nodup := by
  simp [toFields]

theorem value?_of_mem_toFields {s : Span} (h : s.InRange) {f : Text × Json} (hf : f ∈ s.toFields)
    (depth : Nat) : (Tree.ofJson f.2).value? depth = some f.2 := by
  have hnat : ∀ {n : Nat}, n < 2 ^ 32 → (Tree.ofJson (.nat n)).value? depth = some (.nat n) :=
    fun hn => Tree.value?_eq_some (.int ⟨by omega, by omega⟩) (Nat.zero_le depth)
  obtain ⟨hstartLine, hstartColumn, hendLine, hendColumn⟩ := h
  simp only [toFields, List.mem_cons, List.not_mem_nil, or_false] at hf
  rcases hf with rfl | rfl | rfl | rfl
  · exact hnat hstartLine
  · exact hnat hstartColumn
  · exact hnat hendLine
  · exact hnat hendColumn

theorem ofParts?_toFields {s : Span} (h : s.InRange) :
    ofParts? (s.toFields.map fun f => some (.ofJson f.2)) = some s := by
  have hnat : ∀ {n : Nat}, n < 2 ^ 32 → (Tree.ofJson (.nat n)).nat? 32 = some n :=
    Tree.nat?_ofJson (by decide)
  obtain ⟨hstartLine, hstartColumn, hendLine, hendColumn⟩ := h
  simp only [toFields, List.map_cons, List.map_nil, ofParts?, hnat hstartLine, hnat hstartColumn,
    hnat hendLine, hnat hendColumn, Option.bind_eq_bind, Option.bind_some, Option.pure_def]

theorem inRange_of_ofParts? {parts : List (Option Tree)} {s : Span}
    (h : ofParts? parts = some s) : s.InRange := by
  unfold ofParts? at h
  split at h
  · simp only [Option.bind_eq_bind, Option.bind_eq_some_iff, Option.pure_def,
      Option.some.injEq] at h
    obtain ⟨_, hstartLine, _, hstartColumn, _, hendLine, _, hendColumn, rfl⟩ := h
    exact ⟨Tree.lt_of_nat? hstartLine, Tree.lt_of_nat? hstartColumn, Tree.lt_of_nat? hendLine,
      Tree.lt_of_nat? hendColumn⟩
  · cases h

theorem ofTree?_toJson {s : Span} (h : s.InRange) : ofTree? (.ofJson s.toJson) = some s := by
  have hparts : (Tree.ofJson s.toJson).parts? fieldNames 0 = some _ :=
    Tree.parts?_ofJson _ s.nodup_toFields 0
  rw [ofTree?, hparts, Option.bind_some, ofParts?_toFields h]

theorem inRange_of_ofTree? {t : Tree} {s : Span} (h : ofTree? t = some s) : s.InRange := by
  obtain ⟨parts, -, hparts⟩ := Option.bind_eq_some_iff.1 h
  exact inRange_of_ofParts? hparts

theorem roundTrips : format.RoundTrips InRange (fun _ => []) id :=
  Format.roundTrips_of_plain (fun s => .obj s.whole_toFields) (fun _ => ofTree?_toJson)
    fun _ _ => inRange_of_ofTree?

end Span

/-! ## Statistics and options -/

theorem Json.Tree.count?_ofJson {n : Nat} (h : n < 2 ^ 64) : (ofJson (.nat n)).nat? 64 = some n :=
  nat?_ofJson (Nat.le_refl 64) h

namespace LineStats

def format : Format LineStats := ⟨toJson, ofTree?⟩

/-- Counts that are numbers of 64 bits. -/
def InRange (s : LineStats) : Prop :=
  s.totalLines < 2 ^ 64 ∧ s.codeLines < 2 ^ 64 ∧ s.commentLines < 2 ^ 64 ∧
    s.blankLines < 2 ^ 64 ∧ s.characters < 2 ^ 64

theorem whole_toJson (s : LineStats) : s.toJson.Whole fun _ => True := by
  refine .obj ?_
  simp only [List.forall_mem_cons]
  exact ⟨.int trivial, .int trivial, .int trivial, .int trivial, .int trivial, by simp⟩

theorem ofTree?_toJson {s : LineStats} (h : s.InRange) : ofTree? (.ofJson s.toJson) = some s := by
  have hparts : (Tree.ofJson s.toJson).parts?
      ["total_lines", "code_lines", "comment_lines", "blank_lines", "characters"] 0 = some _ :=
    Tree.parts?_ofJson _ (by simp) 0
  obtain ⟨htotal, hcode, hcomment, hblank, hcharacters⟩ := h
  simp only [ofTree?, hparts, List.map_cons, List.map_nil, Tree.count?_ofJson htotal,
    Tree.count?_ofJson hcode, Tree.count?_ofJson hcomment, Tree.count?_ofJson hblank,
    Tree.count?_ofJson hcharacters, Option.bind_eq_bind, Option.bind_some, Option.pure_def]

theorem inRange_of_ofTree? {t : Tree} {s : LineStats} (h : ofTree? t = some s) : s.InRange := by
  simp only [ofTree?, Option.bind_eq_bind, Option.bind_eq_some_iff] at h
  obtain ⟨parts, -, h⟩ := h
  split at h
  · simp only [Option.bind_eq_some_iff, Option.pure_def, Option.some.injEq] at h
    obtain ⟨_, htotal, _, hcode, _, hcomment, _, hblank, _, hcharacters, rfl⟩ := h
    exact ⟨Tree.lt_of_nat? htotal, Tree.lt_of_nat? hcode, Tree.lt_of_nat? hcomment,
      Tree.lt_of_nat? hblank, Tree.lt_of_nat? hcharacters⟩
  · cases h

theorem roundTrips : format.RoundTrips InRange (fun _ => []) id :=
  Format.roundTrips_of_plain whole_toJson (fun _ => ofTree?_toJson) fun _ _ => inRange_of_ofTree?

end LineStats

namespace CacheStats

def format : Format CacheStats := ⟨toJson, ofTree?⟩

/-- Sizes that are numbers of 64 bits. -/
def InRange (s : CacheStats) : Prop :=
  s.memoryEntries < 2 ^ 64 ∧ s.memoryCapacity < 2 ^ 64 ∧ s.diskEntries < 2 ^ 64 ∧
    s.diskBytes < 2 ^ 64

theorem whole_toJson (s : CacheStats) : s.toJson.Whole fun _ => True := by
  refine .obj ?_
  simp only [List.forall_mem_cons]
  exact ⟨.int trivial, .int trivial, .int trivial, .int trivial, .bool _, by simp⟩

theorem ofTree?_toJson {s : CacheStats} (h : s.InRange) :
    ofTree? (.ofJson s.toJson) = some s := by
  have hparts : (Tree.ofJson s.toJson).parts?
      ["memory_entries", "memory_capacity", "disk_entries", "disk_bytes", "enabled"] 0 = some _ :=
    Tree.parts?_ofJson _ (by simp) 0
  have henabled : (Tree.ofJson (.bool s.enabled)).bool? = some s.enabled := rfl
  obtain ⟨hmemory, hcapacity, hdisk, hbytes⟩ := h
  simp only [ofTree?, hparts, List.map_cons, List.map_nil, Tree.count?_ofJson hmemory,
    Tree.count?_ofJson hcapacity, Tree.count?_ofJson hdisk, Tree.count?_ofJson hbytes, henabled,
    Option.bind_eq_bind, Option.bind_some, Option.pure_def]

theorem inRange_of_ofTree? {t : Tree} {s : CacheStats} (h : ofTree? t = some s) :
    s.InRange := by
  simp only [ofTree?, Option.bind_eq_bind, Option.bind_eq_some_iff] at h
  obtain ⟨parts, -, h⟩ := h
  split at h
  · simp only [Option.bind_eq_some_iff, Option.pure_def, Option.some.injEq] at h
    obtain ⟨_, hmemory, _, hcapacity, _, hdisk, _, hbytes, _, -, rfl⟩ := h
    exact ⟨Tree.lt_of_nat? hmemory, Tree.lt_of_nat? hcapacity, Tree.lt_of_nat? hdisk,
      Tree.lt_of_nat? hbytes⟩
  · cases h

theorem roundTrips : format.RoundTrips InRange (fun _ => []) id :=
  Format.roundTrips_of_plain whole_toJson (fun _ => ofTree?_toJson) fun _ _ => inRange_of_ofTree?

end CacheStats

namespace Options

def format : Format Options := ⟨toJson, ofTree?⟩

theorem whole_toJson (o : Options) : o.toJson.Whole fun _ => True := by
  refine .obj ?_
  simp only [List.forall_mem_cons]
  exact ⟨.bool _, .bool _, by simp⟩

theorem ofTree?_toJson (o : Options) : ofTree? (.ofJson o.toJson) = some o := by
  have hparts : (Tree.ofJson o.toJson).parts? ["no_transliterate", "cache_enabled"] 0 = some _ :=
    Tree.parts?_ofJson _ (by simp) 0
  rw [ofTree?, hparts]
  rfl

theorem roundTrips : format.RoundTrips (fun _ => True) (fun _ => []) id :=
  Format.roundTrips_of_plain whole_toJson (fun o _ => o.ofTree?_toJson) fun _ _ _ => trivial

end Options

/-! ## Diagnostics -/

theorem Severity.ofTree?_name (s : Severity) : ofTree? (.str (some s.name)) = some s := by
  cases s <;> rfl

theorem Stage.ofTree?_name (s : Stage) : ofTree? (.str (some s.name)) = some s := by
  cases s <;> rfl

theorem Code.ofTree?_toJson {c : Code} (h : c.number < 2 ^ 16) :
    ofTree? (.ofJson c.toJson) = some c := by
  rw [ofTree?, toJson, Tree.nat?_ofJson (by decide) h, Option.map_some]

namespace Diagnostic

/-- The format of a diagnostic on its own, outside a report. -/
def format : Format Diagnostic := ⟨toJson, ofTree? Tree.maxDepth⟩

/-- Diagnostics whose code is a number of 16 bits and whose span has numbers of 32. -/
def InRange (d : Diagnostic) : Prop :=
  d.code.number < 2 ^ 16 ∧ d.span.InRange

/-- The fields of a diagnostic, in the order in which they are written. -/
def toFields (d : Diagnostic) : Assoc Json :=
  match d.toJson with
  | .obj fields => fields
  | _ => []

theorem toJson_eq (d : Diagnostic) : d.toJson = .obj d.toFields := rfl

theorem whole_toJson (d : Diagnostic) : d.toJson.Whole fun _ => True := by
  refine .obj ?_
  simp only [List.forall_mem_append, List.forall_mem_cons]
  refine ⟨⟨⟨⟨.int trivial, .str _, .str _, .str _, .str _, by simp⟩, d.span.whole_toFields⟩,
    .str _, by simp⟩, ?_⟩
  cases d.suggestion with
  | none => simp
  | some s => simpa using .str s

/-- The fields that are not a diagnostic's own are those of its span. -/
theorem filter_toFields (d : Diagnostic) :
    d.toFields.filter (fun f => !ownFields.contains f.1) = d.span.toFields := by
  cases hs : d.suggestion <;> simp [toFields, toJson, Span.toFields, ownFields, hs]

theorem mapM_unique?_ownFields (d : Diagnostic) :
    ownFields.mapM (Tree.unique? (d.toFields.map fun f => (f.1, Tree.ofJson f.2))) =
      some [some (.ofJson d.code.toJson), some (.str (some d.severity.name)),
        some (.str (some d.stage.name)), some (.str (some d.message)), some (.str (some d.file)),
        some (.str (some d.sourceLine)), d.suggestion.map fun s => .str (some s)] := by
  cases hs : d.suggestion <;>
    simp [toFields, toJson, Span.toFields, ownFields, hs, Tree.unique?, Tree.ofJson]

theorem ofTree?_toJson {d : Diagnostic} (h : d.InRange) (depth : Nat) :
    ofTree? depth (.ofJson d.toJson) = some d := by
  obtain ⟨hcode, hspan⟩ := h
  -- The reader sorts the fields into its own and others, which are those of the span.
  have hothers : (d.toFields.map fun f => (f.1, Tree.ofJson f.2)).filter
      (fun f => !ownFields.contains f.1) = d.span.toFields.map fun f => (f.1, Tree.ofJson f.2) := by
    rw [List.filter_map, ← filter_toFields]
    rfl
  have hvalues : (d.span.toFields.map fun f => (f.1, Tree.ofJson f.2)).mapM
      (fun f => f.2.value? (depth - 1)) = some (d.span.toFields.map (·.2)) := by
    rw [List.mapM_map]
    exact Tree.mapM_eq_some fun f hf => d.span.value?_of_mem_toFields hspan hf _
  have hunique : Span.fieldNames.mapM
      (Tree.unique? (d.span.toFields.map fun f => (f.1, Tree.ofJson f.2))) = some _ :=
    Tree.mapM_unique?_ofJson _ d.span.nodup_toFields
  have hsuggestion : ((d.suggestion.map fun s => Tree.str (some s)).getD .null).nullable?
      Tree.text? = some d.suggestion := by
    cases d.suggestion <;> rfl
  simp only [ofTree?, toJson_eq, Tree.ofJson, Tree.keyed?_ofFields, Option.bind_eq_bind,
    Option.bind_some, hothers, hvalues, hunique, Span.ofParts?_toFields hspan,
    mapM_unique?_ownFields, Code.ofTree?_toJson hcode, Severity.ofTree?_name, Stage.ofTree?_name,
    Tree.text?, hsuggestion, Option.pure_def]

theorem inRange_of_ofTree? {depth : Nat} {t : Tree} {d : Diagnostic}
    (h : ofTree? depth t = some d) : d.InRange := by
  unfold ofTree? at h
  split at h
  · simp only [Option.bind_eq_bind, Option.bind_eq_some_iff] at h
    obtain ⟨fields, -, values, -, span, ⟨parts, -, hspan⟩, own, -, h⟩ := h
    split at h
    · simp only [Option.bind_eq_some_iff, Option.pure_def, Option.some.injEq] at h
      obtain ⟨code, hcode, _, -, _, -, _, -, _, -, _, -, _, -, rfl⟩ := h
      obtain ⟨number, hnumber, rfl⟩ := Option.map_eq_some_iff.1 hcode
      exact ⟨Tree.lt_of_nat? hnumber, Span.inRange_of_ofParts? hspan⟩
    · cases h
  · cases h

theorem roundTrips : format.RoundTrips InRange (fun _ => []) id :=
  Format.roundTrips_of_plain whole_toJson (fun _ h => ofTree?_toJson h _)
    fun _ _ => inRange_of_ofTree?

end Diagnostic

namespace Report

def format : Format Report := ⟨toJson, ofTree?⟩

/-- Reports of diagnostics in range, with counts that are numbers of 64 bits. -/
def InRange (r : Report) : Prop :=
  (∀ d ∈ r.stored, d.InRange) ∧ r.errorCount < 2 ^ 64 ∧ r.warningCount < 2 ^ 64

theorem whole_toJson (r : Report) : r.toJson.Whole fun _ => True := by
  refine .obj ?_
  simp only [List.forall_mem_cons]
  refine ⟨.arr ?_, .int trivial, .int trivial, by simp⟩
  rw [List.forall_mem_map]
  exact fun d _ => d.whole_toJson

theorem ofTree?_toJson {r : Report} (h : r.InRange) : ofTree? (.ofJson r.toJson) = some r := by
  have hparts : (Tree.ofJson r.toJson).parts? ["stored", "error_count", "warning_count"] 0 =
      some _ :=
    Tree.parts?_ofJson _ (by simp) 0
  obtain ⟨hstored, herrors, hwarnings⟩ := h
  have hlist : (Tree.ofJson (.arr (r.stored.map Diagnostic.toJson))).list?
      (Diagnostic.ofTree? (Tree.maxDepth - 2)) = some r.stored := by
    rw [Tree.ofJson, Tree.ofItems_eq_map, List.map_map, Tree.list?, List.mapM_map]
    refine (Tree.mapM_eq_some (g := id) fun d hd => ?_).trans (by rw [List.map_id])
    exact Diagnostic.ofTree?_toJson (hstored d hd) _
  simp only [ofTree?, hparts, List.map_cons, List.map_nil, hlist, Tree.count?_ofJson herrors,
    Tree.count?_ofJson hwarnings, Option.bind_eq_bind, Option.bind_some, Option.pure_def]

theorem inRange_of_ofTree? {t : Tree} {r : Report} (h : ofTree? t = some r) : r.InRange := by
  simp only [ofTree?, Option.bind_eq_bind, Option.bind_eq_some_iff] at h
  obtain ⟨parts, -, h⟩ := h
  split at h
  · next stored _ _ =>
    simp only [Option.bind_eq_some_iff, Option.pure_def, Option.some.injEq] at h
    obtain ⟨ds, hstored, _, herrors, _, hwarnings, rfl⟩ := h
    refine ⟨fun d hd => ?_, Tree.lt_of_nat? herrors, Tree.lt_of_nat? hwarnings⟩
    cases stored with
    | arr items =>
      obtain ⟨t, ht⟩ := Tree.exists_of_mapM hstored d hd
      exact Diagnostic.inRange_of_ofTree? ht
    | _ => cases hstored
  · cases h

theorem roundTrips : format.RoundTrips InRange (fun _ => []) id :=
  Format.roundTrips_of_plain whole_toJson (fun _ => ofTree?_toJson) fun _ _ => inRange_of_ofTree?

end Report

/-! ## Output and entries -/

namespace Compiled

def format : Format Compiled := ⟨toJson, ofTree?⟩

theorem whole_toJson {c : Compiled} (h : ∀ v ∈ c.map.toList, v.Whole fun _ => True) :
    c.toJson.Whole fun _ => True := by
  refine .obj ?_
  simp only [List.forall_mem_cons]
  exact ⟨.str _, Json.whole_nullable fun m hm => h m (Option.mem_toList.2 hm), by simp⟩

theorem ofTree?_toJson {c : Compiled} (h : ∀ v ∈ c.map.toList, v.Storable ∧ v.canonical = v) :
    ofTree? (.ofJson c.toJson) = some { c with map := c.map.filter (· ≠ .null) } := by
  have hparts : (Tree.ofJson c.toJson).parts? ["code", "map"] 0 = some _ :=
    Tree.parts?_ofJson _ (by simp) 0
  have hmap := Tree.nullable?_ofJson fun m hm => h m (Option.mem_toList.2 hm)
  have hcode : (Tree.ofJson (.str c.code)).text? = some c.code := rfl
  simp only [ofTree?, hparts, List.map_cons, List.map_nil, hcode, Option.getD_some, hmap,
    Option.bind_eq_bind, Option.bind_some, Option.pure_def]

theorem decoded_of_ofTree? {t : Tree} {c : Compiled} (h : ofTree? t = some c) :
    c.map.filter (· ≠ .null) = c.map ∧ ∀ v ∈ c.map.toList, v.Decoded := by
  simp only [ofTree?, Option.bind_eq_bind, Option.bind_eq_some_iff] at h
  obtain ⟨parts, -, h⟩ := h
  split at h
  · simp only [Option.bind_eq_some_iff, Option.pure_def, Option.some.injEq] at h
    obtain ⟨_, -, map, hmap, rfl⟩ := h
    obtain ⟨hdecoded, hkept⟩ := Tree.decoded_of_nullable? hmap
    exact ⟨hkept, fun v hv => hdecoded v (Option.mem_toList.1 hv)⟩
  · cases h

theorem roundTrips : format.RoundTrips (fun _ => True) (·.map.toList)
    fun c => { c with map := c.map.filter (· ≠ .null) } := by
  refine Format.roundTrips_of_trees (fun _ => whole_toJson) (fun _ _ => ofTree?_toJson) ?_
  intro t c h
  obtain ⟨hkept, hdecoded⟩ := decoded_of_ofTree? h
  exact ⟨trivial, by rw [hkept], hdecoded⟩

end Compiled

namespace Entry

/-- Entries have this format in their files. -/
def format : Format Entry := ⟨toJson, ofTree?⟩

example : format.write = print ∧ format.read? = parse? := ⟨rfl, rfl⟩

theorem decoded_of_ofTree? {t : Tree} {e : Entry} (h : ofTree? t = some e) :
    e.createdAt < 2 ^ 64 ∧ e.positionMap.filter (· ≠ .null) = e.positionMap ∧
      ∀ v ∈ e.freeValues, v.Decoded := by
  simp only [ofTree?, Option.bind_eq_bind, Option.bind_eq_some_iff] at h
  obtain ⟨parts, -, h⟩ := h
  split at h
  · simp only [Option.bind_eq_some_iff, Option.pure_def, Option.some.injEq] at h
    obtain ⟨_, -, map, hmap, _, htime, _, hoptions, rfl⟩ := h
    obtain ⟨hdecoded, hkept⟩ := Tree.decoded_of_nullable? hmap
    refine ⟨Tree.lt_of_nat? htime, hkept, ?_⟩
    rw [freeValues, List.forall_mem_cons]
    exact ⟨Tree.decoded_of_free? hoptions, fun v hv => hdecoded v (Option.mem_toList.1 hv)⟩
  · cases h

theorem roundTrips : format.RoundTrips (·.createdAt < 2 ^ 64) freeValues
    fun e => { e with positionMap := e.positionMap.filter (· ≠ .null) } := by
  refine Format.roundTrips_of_trees (fun _ => whole_toJson) (fun _ => ofTree?_ofJson) ?_
  intro t e h
  obtain ⟨htime, hkept, hdecoded⟩ := decoded_of_ofTree? h
  exact ⟨htime, by rw [hkept], hdecoded⟩

end Entry

/-! ## All formats -/

/-- Every persisted type survives being written and read. Of entries and outputs only a
    map that is null gets lost. -/
theorem formats_roundTrip :
    Entry.format.RoundTrips (·.createdAt < 2 ^ 64) Entry.freeValues
      (fun e => { e with positionMap := e.positionMap.filter (· ≠ .null) }) ∧
    Compiled.format.RoundTrips (fun _ => True) (·.map.toList)
      (fun c => { c with map := c.map.filter (· ≠ .null) }) ∧
    Diagnostic.format.RoundTrips Diagnostic.InRange (fun _ => []) id ∧
    Report.format.RoundTrips Report.InRange (fun _ => []) id ∧
    Span.format.RoundTrips Span.InRange (fun _ => []) id ∧
    LineStats.format.RoundTrips LineStats.InRange (fun _ => []) id ∧
    CacheStats.format.RoundTrips CacheStats.InRange (fun _ => []) id ∧
    Options.format.RoundTrips (fun _ => True) (fun _ => []) id :=
  ⟨Entry.roundTrips, Compiled.roundTrips, Diagnostic.roundTrips, Report.roundTrips,
    Span.roundTrips, LineStats.roundTrips, CacheStats.roundTrips, Options.roundTrips⟩

/-- An entry with a map that is null, and with options that are nested. -/
def nullMapEntry : Entry where
  output := "\"ক\"\n"
  positionMap := some .null
  createdAt := 1
  options := .obj [("a", .arr [.num (.int (-1)), .null]), ("b", .str "\\")]

/-- The text of an entry with its fields out of order, an unknown one, none for the map,
    and a key of the options twice. -/
def disorderedEntry : Text :=
  "\x7b\"options\":\x7b\"b\":1.5,\"a\":-2,\"b\":[]\x7d, \"more\":1e999,".toList ++
    "\"created_at\":5,\"output\":\"\\u0995\"\x7d"

theorem formats_roundTrip_disorderedEntry :
    Entry.format.read? (Entry.format.write nullMapEntry) =
      some { nullMapEntry with positionMap := none } ∧
    ∃ e, Entry.format.read? disorderedEntry = some e ∧
      e.options = .obj [("a", .num (.int (-2))), ("b", .arr [])] ∧
      Entry.format.read? (Entry.format.write e) = some e := by
  obtain ⟨⟨hread, hwrite⟩, -⟩ := formats_roundTrip
  constructor
  · have hitems : (Json.arr [.num (.int (-1)), .null]).Whole Json.Numeral.Fits := by
      refine .arr ?_
      simp only [List.forall_mem_cons]
      exact ⟨.int ⟨by decide, by decide⟩, .null, by simp⟩
    have hoptions : nullMapEntry.options.Whole Json.Numeral.Fits := by
      refine .obj ?_
      simp only [List.forall_mem_cons]
      exact ⟨hitems, .str _, by simp⟩
    refine hread nullMapEntry (by decide) ?_
    simp only [Entry.freeValues, nullMapEntry, Option.toList_some, List.forall_mem_cons]
    exact ⟨⟨⟨hoptions, by decide⟩, by decide⟩, ⟨⟨.null, by decide⟩, rfl⟩, by simp⟩
  · have hmap : (Entry.format.read? disorderedEntry).map (fun e => (e.positionMap, e.options)) =
        some (none, .obj [("a", .num (.int (-2))), ("b", .arr [])]) := by
      decide +kernel
    obtain ⟨e, he, heq⟩ := Option.map_eq_some_iff.1 hmap
    obtain ⟨hnone, hoptions⟩ := Prod.mk.inj heq
    refine ⟨e, he, hoptions, (hwrite _ e he ?_).1⟩
    simp only [Entry.freeValues, hnone, hoptions, Option.toList_none, List.forall_mem_singleton]
    refine .obj ?_
    simp only [List.forall_mem_cons]
    exact ⟨.int trivial, .arr (by simp), by simp⟩

end BanglaSource
