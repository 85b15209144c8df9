-- SUMMARY: A write to the disk tier is all or nothing: the entry is in its file, or the file is what it was before.
import BanglaSource.Proofs.CacheCoherence

/-!
# Writes to disk

An entry is written to a temporary file, which is then moved over the entry file. The
directory may be impossible to create, and folders may stand in the way of either
file. Wherever a write stops, the entry file is untouched, the temporary file is gone,
and no other name is affected. A write that goes through leaves a file from which the
whole entry is read back.
-/
namespace BanglaSource

/-! ## Entries in their files -/

namespace Entry

/-- The entry that is read back from a file: its values in canonical form, and no
    position map for one that is null. -/
def onDisk (e : Entry) : Entry :=
  { e with
    positionMap := (e.positionMap.map Json.canonical).filter (· ≠ .null)
    options := e.options.canonical }

/-- An entry is written with its values in canonical form. -/
theorem toJson_canonical (e : Entry) :
    toJson { e with
      positionMap := e.positionMap.map Json.canonical, options := e.options.canonical } =
      e.toJson := by
  have hmap : ((e.positionMap.map Json.canonical).getD .null).canonical =
      (e.positionMap.getD .null).canonical := by
    cases e.positionMap with
    | none => rfl
    | some m => exact Json.canonical_canonical m
  simp only [toJson, hmap, Json.canonical_canonical]

theorem parse?_print_eq_onDisk {e : Entry} (htime : e.createdAt < 2 ^ 64)
    (hfree : ∀ v ∈ e.freeValues, v.Storable) : parse? e.print = some e.onDisk := by
  have hwhole : e.toJson.Whole fun _ => True :=
    whole_toJson fun v hv => (hfree v hv).whole.mono fun _ _ => trivial
  rw [parse?, print, Json.Tree.parse?_print hwhole, Option.bind_some, ← toJson_canonical]
  refine ofTree?_ofJson htime ?_
  rw [freeValues, List.forall_mem_cons] at hfree ⊢
  refine ⟨⟨hfree.1.canonical, Json.canonical_canonical _⟩, fun v hv => ?_⟩
  obtain ⟨m, hm, rfl⟩ := Option.map_eq_some_iff.1 (Option.mem_toList.1 hv)
  exact ⟨(hfree.2 m (Option.mem_toList.2 hm)).canonical, Json.canonical_canonical _⟩

end Entry

namespace Disk

variable {d : Directory} {key : Text} {e : Entry}

/-! ## How a write ends -/

/-- A write goes through if the directory can be created and no folder has the name of
    one of the two files. -/
theorem write_eq_true_iff :
    (write d key e).2 = true ↔ d.IsWorking ∧ d.find? (temporaryName key) ≠ some .folder ∧
      d.find? (entryName key) ≠ some .folder := by
  rcases write_cases d key e with ⟨hcreate, hwrite⟩ | ⟨d', -, hfolder, hwrite⟩ |
    ⟨d', -, -, hfolder, hwrite, -⟩ | ⟨d', hworking, htemporary, hentry, hwrite, -⟩ <;> rw [hwrite]
  · simp [Directory.IsWorking, hcreate]
  · simp [hfolder]
  · simp [hfolder]
  · simp [Directory.IsWorking, hworking, htemporary, hentry]

/-- No write leaves a temporary file, not even one that was there before. -/
theorem find?_temporaryName_write (content : Content) :
    (write d key e).1.find? (temporaryName key) ≠ some (.file content) := by
  rcases write_cases d key e with ⟨hcreate, hwrite⟩ | ⟨d', hcreate, hfolder, hwrite⟩ |
    ⟨d', -, -, -, hwrite, hfind⟩ | ⟨d', -, -, -, hwrite, -, hfind⟩ <;> rw [hwrite]
  · cases d with
    | blocked | occupied => simp [Directory.find?]
    | missing | present => cases hcreate
  · simp [Directory.find?_create? hcreate, hfolder]
  · simp [hfind]
  · simp [hfind, entryName_ne_temporaryName]

theorem read_write (hdone : (write d key e).2 = true) (htime : e.createdAt < 2 ^ 64)
    (hfree : ∀ v ∈ e.freeValues, v.Storable) : read (write d key e).1 key = .entry e.onDisk := by
  refine read_eq_entry_iff.2 ⟨e.print, ?_, Entry.parse?_print_eq_onDisk htime hfree⟩
  rw [find?_write d key e (entryName_ne_temporaryName key key), if_pos ⟨hdone, rfl⟩]

/-! ## All or nothing -/

/-- On a directory of any kind, a write affects no other names than those of its two
    files. It goes through unless the directory cannot be created or a folder has one of
    these names; then the entry is read back from its file and the temporary file is
    gone. Otherwise the entry file is as before and no temporary file is left. -/
theorem write_all_or_nothing (d : Directory) (key : Text) (e : Entry)
    (htime : e.createdAt < 2 ^ 64) (hfree : ∀ v ∈ e.freeValues, v.Storable) :
    let after := (write d key e).1
    let done := (write d key e).2
    (∀ name, name ≠ entryName key → name ≠ temporaryName key →
      after.find? name = d.find? name) ∧
    (done = true ↔ d.IsWorking ∧ d.find? (temporaryName key) ≠ some .folder ∧
      d.find? (entryName key) ≠ some .folder) ∧
    (done = true → read after key = .entry e.onDisk ∧
      after.find? (temporaryName key) = none) ∧
    (done = false → after.find? (entryName key) = d.find? (entryName key) ∧
      ∀ content, after.find? (temporaryName key) ≠ some (.file content)) := by
  refine ⟨fun name hentry htemporary => ?_, write_eq_true_iff, fun hdone => ?_, fun hfailed => ?_⟩
  · rw [find?_write d key e htemporary, if_neg fun h => hentry h.2.symm]
  · obtain ⟨hworking, htemporary, hentry⟩ := write_eq_true_iff.1 hdone
    exact ⟨read_write hdone htime hfree, (write_of_isWorking hworking htemporary hentry e).2.2⟩
  · refine ⟨?_, find?_temporaryName_write⟩
    rw [find?_write d key e (entryName_ne_temporaryName key key), if_neg (by simp [hfailed])]

/-- A directory in which a folder has the name of one entry file, another one is not the
    encoding of a text, and both have a temporary file. -/
def litteredDirectory : Directory :=
  .present [("a.json", .folder), ("a.tmp", .file (.text "half")),
    ("b.json", .file (.binary ⟨#[255]⟩)), ("b.tmp", .file (.text "half"))]

/-- An entry with a position map that is null and with options out of order. -/
def looseEntry : Entry where
  output := "ক"
  positionMap := some .null
  createdAt := 5
  options := .obj [("y", .arr [.null]), ("x", .num (.int (-1)))]

theorem write_all_or_nothing_litteredDirectory :
    looseEntry.createdAt < 2 ^ 64 ∧ (∀ v ∈ looseEntry.freeValues, v.Storable) ∧
    (write litteredDirectory "a" looseEntry).2 = false ∧
    (write litteredDirectory "a" looseEntry).1.find? "a.json" = some .folder ∧
    (∀ content, (write litteredDirectory "a" looseEntry).1.find? "a.tmp" ≠
      some (.file content)) ∧
    (write litteredDirectory "b" looseEntry).2 = true ∧
    read (write litteredDirectory "b" looseEntry).1 "b" =
      .entry ⟨"ক", none, 5, .obj [("x", .num (.int (-1))), ("y", .arr [.null])]⟩ ∧
    (write litteredDirectory "b" looseEntry).1.find? "b.tmp" = none ∧
    (write litteredDirectory "b" looseEntry).1.find? "a.tmp" =
      some (.file (.text "half")) := by
  have hoptions : looseEntry.options.Whole Json.Numeral.Fits := by
    refine .obj ?_
    simp only [List.forall_mem_cons]
    exact ⟨.arr (by simpa using .null), .int ⟨by decide, by decide⟩, by simp⟩
  have hfree : ∀ v ∈ looseEntry.freeValues, v.Storable := by
    simp only [Entry.freeValues, looseEntry, Option.toList_some, List.forall_mem_cons]
    exact ⟨⟨hoptions, by decide⟩, ⟨.null, by decide⟩, by simp⟩
  obtain ⟨-, hends, -, hfails⟩ :=
    write_all_or_nothing litteredDirectory "a" looseEntry (by decide) hfree
  obtain ⟨hothers, hends', hdone, -⟩ :=
    write_all_or_nothing litteredDirectory "b" looseEntry (by decide) hfree
  have hfailed : (write litteredDirectory "a" looseEntry).2 = false := by
    rw [← Bool.not_eq_true, hends]
    exact fun h => h.2.2 rfl
  have hthrough : (write litteredDirectory "b" looseEntry).2 = true := by
    refine hends'.2 ⟨rfl, ?_, ?_⟩ <;>
    · intro hfolder
      cases hfolder
  obtain ⟨hfolder, hgone⟩ := hfails hfailed
  obtain ⟨hread, hmoved⟩ := hdone hthrough
  exact ⟨by decide, hfree, hfailed, hfolder, hgone, hthrough, hread, hmoved,
    hothers "a.tmp" (by decide) (by decide)⟩

end Disk
end BanglaSource
