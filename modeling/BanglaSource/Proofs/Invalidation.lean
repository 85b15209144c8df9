-- SUMMARY: Invalidation removes exactly the stale entry files, counts them, and leaves everything else as it is.
import BanglaSource.Proofs.CacheTiers
import Mathlib.Data.Set.Card

/-!
# Invalidation

An entry file is stale if no text or no entry can be read from it, or if its entry is
too old. One step of a sweep removes the file under a name if it is stale, and changes
nothing otherwise: a folder with the name of an entry file cannot be read either, but
is not removed and does not count. So the names that a sweep removes are those of the
stale files among the names it goes through, in any order and with any repetitions.
-/
namespace BanglaSource

/-! ## Names of entry files -/

namespace Disk

/-- A name is that of an entry file if something stands before the extension. -/
theorem isEntryName_iff {name : Text} :
    isEntryName name = true ↔ ∃ stem : Text, stem ≠ [] ∧ name = stem ++ ".json" := by
  rw [isEntryName, beq_iff_eq, extension?]
  constructor
  · intro h
    split at h
    · next point last stem hdrop =>
      have hpoint := List.head?_dropWhile_not (· != '.') name.reverse
      have hname := List.takeWhile_append_dropWhile (p := (· != '.')) (l := name.reverse)
      rw [hdrop] at hpoint hname
      obtain rfl : point = '.' := by simpa using hpoint
      have hjson : (name.reverse.takeWhile (· != '.')).reverse = "json".toList := Option.some.inj h
      refine ⟨(last :: stem).reverse, by simp, ?_⟩
      rw [← List.reverse_reverse name, ← hname, List.reverse_append, hjson]
      simp
    · cases h
  · rintro ⟨stem, hstem, rfl⟩
    obtain ⟨last, rest, hlast⟩ := List.exists_cons_of_ne_nil (List.reverse_ne_nil_iff.2 hstem)
    have hname : (stem ++ ".json".toList).reverse = "nosj.".toList ++ last :: rest := by
      rw [List.reverse_append, hlast]
      rfl
    rw [hname]
    rfl

theorem mem_entryNames? {d : Directory} {names : List Text} (h : entryNames? d = some names)
    (name : Text) : name ∈ names ↔ isEntryName name = true ∧ (d.find? name).isSome = true := by
  cases d with
  | missing =>
    cases h
    simp [Directory.find?]
  | present nodes =>
    cases h
    rw [List.mem_filter, Assoc.mem_keys_iff, and_comm]
    rfl
  | blocked | occupied => cases h

theorem find?_of_entryNames?_eq_none {d : Directory} (h : entryNames? d = none) (name : Text) :
    d.find? name = none := by
  cases d with
  | missing | present => cases h
  | blocked | occupied => rfl

end Disk

/-! ## Stale files -/

/-- Whether a file with this content is of no more use at time `now`: it is not the
    encoding of a text, or holds no entry, or holds one that is older than `maxAge`. -/
def Content.IsStale (maxAge now : Nat) : Content → Prop
  | .text s => Entry.parse? s = none ∨ ∃ e, Entry.parse? s = some e ∧ maxAge < now - e.createdAt
  | .binary _ => True

theorem Content.IsStale.mono {maxAge maxAge' now : Nat} (hle : maxAge ≤ maxAge')
    {content : Content} (h : content.IsStale maxAge' now) : content.IsStale maxAge now := by
  cases content with
  | binary => trivial
  | text s =>
    rcases h with hnone | ⟨e, he, hold⟩
    · exact .inl hnone
    · exact .inr ⟨e, he, Nat.lt_of_le_of_lt hle hold⟩

namespace Disk

variable {maxAge now : Nat} {d : Directory}

/-- Whether a stale file stands under a name. -/
def HasStale (d : Directory) (maxAge now : Nat) (name : Text) : Prop :=
  ∃ content, d.find? name = some (.file content) ∧ content.IsStale maxAge now

theorem isStale_judge {name : Text} {content : Content}
    (h : d.find? name = some (.file content)) :
    (judge d maxAge now name).isStale = true ↔ content.IsStale maxAge now := by
  cases content with
  | text s =>
    simp only [judge, Directory.read_eq_text_iff.2 h, Content.IsStale]
    cases Entry.parse? s with
    | none => simp [Verdict.isStale]
    | some e =>
      dsimp only
      by_cases hold : maxAge < e.age now
      · rw [if_pos hold]
        exact iff_of_true rfl (.inr ⟨e, rfl, hold⟩)
      · rw [if_neg hold]
        refine iff_of_false Bool.false_ne_true ?_
        rintro (hnone | ⟨e', he', hold'⟩)
        · cases hnone
        · cases he'
          exact hold hold'
  | binary bytes =>
    cases d with
    | present nodes =>
      have hfile : Assoc.find? name nodes = some (.file (.binary bytes)) := h
      simp [judge, Directory.read, hfile, Verdict.isStale, Content.IsStale]
    | missing | blocked | occupied => cases h

/-! ## One step of a sweep -/

theorem sweep_cons_of_stale {name : Text} (h : HasStale d maxAge now name) (names : List Text) :
    ∃ d', d.remove? name = some d' ∧
      (sweep maxAge now d (name :: names)).1 = (sweep maxAge now d' names).1 ∧
      (sweep maxAge now d (name :: names)).2.1 = (sweep maxAge now d' names).2.1 + 1 := by
  obtain ⟨content, hfile, hstale⟩ := h
  obtain ⟨d', hremove⟩ :=
    Option.isSome_iff_exists.1 ((d.isSome_remove?_iff name).2 ⟨content, hfile⟩)
  have hjudge := (isStale_judge hfile).2 hstale
  exact ⟨d', hremove, by simp [sweep, hjudge, hremove]⟩

/-- A file that is not stale stays, and so does everything that is no file. -/
theorem sweep_cons_of_not_stale {name : Text} (h : ¬ HasStale d maxAge now name)
    (names : List Text) :
    (sweep maxAge now d (name :: names)).1 = (sweep maxAge now d names).1 ∧
      (sweep maxAge now d (name :: names)).2.1 = (sweep maxAge now d names).2.1 := by
  have hnone : (if (judge d maxAge now name).isStale then d.remove? name else none) = none := by
    split
    · next hjudge =>
      rw [← Option.not_isSome_iff_eq_none, d.isSome_remove?_iff]
      rintro ⟨content, hfile⟩
      exact h ⟨content, hfile, (isStale_judge hfile).1 hjudge⟩
    · rfl
  simp [sweep, hnone]

/-- Removing a file makes no other one stale. -/
theorem hasStale_remove? {d' : Directory} {name other : Text} (h : d.remove? name = some d') :
    HasStale d' maxAge now other ↔ other ≠ name ∧ HasStale d maxAge now other := by
  simp only [HasStale, Directory.find?_remove? h]
  by_cases hname : name = other
  · simp [hname]
  · simp [hname, Ne.symm hname]

/-! ## Whole sweeps -/

/-- The stale files among names. -/
def staleAmong (d : Directory) (maxAge now : Nat) (names : List Text) : Set Text :=
  {name | name ∈ names ∧ HasStale d maxAge now name}

theorem staleAmong_cons_of_stale {d' : Directory} {name : Text} (h : HasStale d maxAge now name)
    (hremove : d.remove? name = some d') (names : List Text) :
    staleAmong d maxAge now (name :: names) = insert name (staleAmong d' maxAge now names) ∧
      name ∉ staleAmong d' maxAge now names := by
  constructor
  · ext other
    by_cases hname : other = name
    · simp [staleAmong, hname, h]
    · simp [staleAmong, hname, hasStale_remove? hremove]
  · exact fun hmem => ((hasStale_remove? hremove).1 hmem.2).1 rfl

theorem staleAmong_cons_of_not_stale {name : Text} (h : ¬ HasStale d maxAge now name)
    (names : List Text) :
    staleAmong d maxAge now (name :: names) = staleAmong d maxAge now names := by
  ext other
  by_cases hname : other = name
  · simp [staleAmong, hname, h]
  · simp [staleAmong, hname]

theorem finite_staleAmong (d : Directory) (maxAge now : Nat) (names : List Text) :
    (staleAmong d maxAge now names).Finite :=
  names.finite_toSet.subset fun _ h => h.1

/-- A sweep removes the stale files among the names, and what it returns is their
    number. -/
theorem sweep_removes (d : Directory) (maxAge now : Nat) (names : List Text) :
    (∀ name ∈ staleAmong d maxAge now names, (sweep maxAge now d names).1.find? name = none) ∧
    (∀ name ∉ staleAmong d maxAge now names,
      (sweep maxAge now d names).1.find? name = d.find? name) ∧
    (sweep maxAge now d names).2.1 = (staleAmong d maxAge now names).ncard := by
  induction names generalizing d with
  | nil => simp [staleAmong, sweep]
  | cons first names ih =>
    by_cases hstale : HasStale d maxAge now first
    · obtain ⟨d', hremove, hlast, hcount⟩ := sweep_cons_of_stale hstale names
      obtain ⟨hnames, hfirst⟩ := staleAmong_cons_of_stale hstale hremove names
      obtain ⟨hgone, hkept, hnumber⟩ := ih d'
      have hfind := Directory.find?_remove? hremove
      rw [hlast, hcount, hnames, Set.ncard_insert_of_notMem hfirst (finite_staleAmong ..), hnumber]
      refine ⟨fun name hname => ?_, fun name hname => ?_, rfl⟩
      · rcases Set.mem_insert_iff.1 hname with rfl | hname
        · rw [hkept _ hfirst, hfind, if_pos rfl]
        · exact hgone name hname
      · rw [Set.mem_insert_iff, not_or] at hname
        rw [hkept name hname.2, hfind, if_neg (Ne.symm hname.1)]
    · obtain ⟨hlast, hcount⟩ := sweep_cons_of_not_stale hstale names
      rw [hlast, hcount, staleAmong_cons_of_not_stale hstale]
      exact ih d

/-- A sweep that finds nothing stale changes nothing. -/
theorem sweep_of_staleAmong_eq_empty {names : List Text}
    (h : staleAmong d maxAge now names = ∅) : (sweep maxAge now d names).1 = d := by
  induction names with
  | nil => rfl
  | cons first names ih =>
    have hfirst : ¬ HasStale d maxAge now first := fun hstale => by
      have hmem : first ∈ staleAmong d maxAge now (first :: names) := ⟨List.mem_cons_self, hstale⟩
      rw [h] at hmem
      exact hmem
    rw [staleAmong_cons_of_not_stale hfirst] at h
    rw [(sweep_cons_of_not_stale hfirst names).1, ih h]

theorem isThere_sweep (d : Directory) (maxAge now : Nat) (names : List Text) :
    (sweep maxAge now d names).1.isThere = d.isThere := by
  induction names generalizing d with
  | nil => rfl
  | cons first names ih =>
    by_cases hstale : HasStale d maxAge now first
    · obtain ⟨d', hremove, hlast, -⟩ := sweep_cons_of_stale hstale names
      rw [hlast, ih, Directory.isThere_remove? hremove]
    · rw [(sweep_cons_of_not_stale hstale names).1, ih]

/-! ## All entry files -/

/-- The names of the entry files that are stale. -/
def staleFiles (d : Directory) (maxAge now : Nat) : Set Text :=
  {name | (∃ stem : Text, stem ≠ [] ∧ name = stem ++ ".json") ∧ HasStale d maxAge now name}

theorem staleAmong_entryNames? {names : List Text} (h : entryNames? d = some names) :
    staleAmong d maxAge now names = staleFiles d maxAge now := by
  ext name
  simp only [staleAmong, staleFiles, Set.mem_ofPred_eq, mem_entryNames? h, ← isEntryName_iff]
  constructor
  · exact fun hname => ⟨hname.1.1, hname.2⟩
  · rintro ⟨hname, content, hfile, hstale⟩
    exact ⟨⟨hname, by rw [hfile]; rfl⟩, content, hfile, hstale⟩

theorem staleFiles_mono {maxAge' : Nat} (hle : maxAge ≤ maxAge') :
    staleFiles d maxAge' now ⊆ staleFiles d maxAge now := by
  rintro name ⟨hname, content, hfile, hstale⟩
  exact ⟨hname, content, hfile, hstale.mono hle⟩

end Disk

namespace Cache

open Disk (staleFiles)

variable {c : Cache} {now : Nat} {maxAge : Option Nat}

/-- The greatest age that invalidation leaves an entry. -/
def ageLimit (c : Cache) (maxAge : Option Nat) : Nat :=
  min (maxAge.getD c.maxAge) (2 ^ 64 - 1)

/-- Invalidation waits for pending writes and is then a sweep through the entry files, if
    they can be listed. -/
theorem invalidate_cases (c : Cache) (now : Nat) (maxAge : Option Nat) :
    ((c.invalidate now maxAge).state = c.flush ∧ (c.invalidate now maxAge).value = 0 ∧
      ∀ name, c.flush.directory.find? name = none) ∨
    ∃ names, Disk.staleAmong c.flush.directory (c.ageLimit maxAge) now names =
        staleFiles c.flush.directory (c.ageLimit maxAge) now ∧
      (c.invalidate now maxAge).state =
        { c.flush with
          directory := (Disk.sweep (c.ageLimit maxAge) now c.flush.directory names).1 } ∧
      (c.invalidate now maxAge).value =
        (Disk.sweep (c.ageLimit maxAge) now c.flush.directory names).2.1 := by
  have hage : c.flush.maxAge = c.maxAge := rfl
  cases hnames : Disk.entryNames? c.flush.directory with
  | none =>
    exact .inl ⟨by simp [invalidate, hnames], by simp [invalidate, hnames],
      Disk.find?_of_entryNames?_eq_none hnames⟩
  | some names =>
    refine .inr ⟨names, Disk.staleAmong_entryNames? hnames, ?_, ?_⟩ <;>
      simp [invalidate, hnames, ageLimit, longestAge, hage]

theorem invalidate_removes (c : Cache) (now : Nat) (maxAge : Option Nat) :
    (∀ name ∈ staleFiles c.flush.directory (c.ageLimit maxAge) now,
      (c.invalidate now maxAge).state.directory.find? name = none) ∧
    (∀ name ∉ staleFiles c.flush.directory (c.ageLimit maxAge) now,
      (c.invalidate now maxAge).state.directory.find? name = c.flush.directory.find? name) ∧
    (c.invalidate now maxAge).value =
      (staleFiles c.flush.directory (c.ageLimit maxAge) now).ncard := by
  rcases c.invalidate_cases now maxAge with
    ⟨hstate, hvalue, hnone⟩ | ⟨names, hnames, hstate, hvalue⟩
  · have hempty : staleFiles c.flush.directory (c.ageLimit maxAge) now = ∅ := by
      rw [Set.eq_empty_iff_forall_notMem]
      rintro name ⟨-, content, hfile, -⟩
      rw [hnone] at hfile
      cases hfile
    simp [hstate, hvalue, hempty]
  · rw [hstate, hvalue, ← hnames]
    exact Disk.sweep_removes ..

/-- What stands under a name after invalidation stood there when all writes were done. -/
theorem find?_of_invalidate {name : Text} {node : Node}
    (h : (c.invalidate now maxAge).state.directory.find? name = some node) :
    c.flush.directory.find? name = some node := by
  obtain ⟨hgone, hkept, -⟩ := c.invalidate_removes now maxAge
  by_cases hstale : name ∈ staleFiles c.flush.directory (c.ageLimit maxAge) now
  · rw [hgone name hstale] at h
    cases h
  · rwa [← hkept name hstale]

/-- Invalidation leaves the memory tier and the settings alone, leaves no write pending,
    and removes no directory. -/
theorem state_invalidate (c : Cache) (now : Nat) (maxAge : Option Nat) :
    (c.invalidate now maxAge).state =
      { c with directory := (c.invalidate now maxAge).state.directory, pending := [] } ∧
    (c.invalidate now maxAge).state.directory.isThere = c.flush.directory.isThere := by
  rcases c.invalidate_cases now maxAge with ⟨hstate, -, -⟩ | ⟨names, -, hstate, -⟩ <;> rw [hstate]
  · exact ⟨rfl, rfl⟩
  · exact ⟨rfl, Disk.isThere_sweep ..⟩

theorem invalidate_of_staleFiles_eq_empty (hpending : c.pending = [])
    (h : staleFiles c.directory (c.ageLimit maxAge) now = ∅) :
    (c.invalidate now maxAge).state = c ∧ (c.invalidate now maxAge).value = 0 := by
  have hflush := flush_of_pending_eq_nil hpending
  constructor
  · rcases c.invalidate_cases now maxAge with ⟨hstate, -, -⟩ | ⟨names, hnames, hstate, -⟩
    · rw [hstate, hflush]
    · rw [hflush] at hnames hstate
      rw [hstate, Disk.sweep_of_staleAmong_eq_empty (hnames.trans h)]
  · rw [(c.invalidate_removes now maxAge).2.2, hflush, h, Set.ncard_empty]

/-- What invalidation leaves is not stale. -/
theorem staleFiles_invalidate (c : Cache) (now : Nat) (maxAge : Option Nat) :
    staleFiles (c.invalidate now maxAge).state.directory (c.ageLimit maxAge) now = ∅ := by
  rw [Set.eq_empty_iff_forall_notMem]
  rintro name ⟨hname, content, hfile, hstale⟩
  rw [(c.invalidate_removes now maxAge).1 name
    ⟨hname, content, find?_of_invalidate hfile, hstale⟩] at hfile
  cases hfile

/-- On a directory of any kind, invalidation does the pending writes, then removes exactly
    the stale entry files and returns their number. Ages are cut down to 64 bits, and the
    configured one is taken if none is given. All other files, all folders, the directory
    itself, the memory tier and the settings stay. A second call at the same time finds
    nothing to remove, and a call with a larger age removes nothing else. -/
theorem invalidate_removes_exactly_stale (c : Cache) (now : Nat) (maxAge : Option Nat) :
    let written := c.pending.foldl (fun d job => (Disk.write d job.key job.entry).1) c.directory
    let stale := staleFiles written (min (maxAge.getD c.maxAge) (2 ^ 64 - 1)) now
    let swept := c.invalidate now maxAge
    (∀ name ∈ stale, swept.state.directory.find? name = none) ∧
    (∀ name ∉ stale, swept.state.directory.find? name = written.find? name) ∧
    swept.value = stale.ncard ∧
    swept.state = { c with directory := swept.state.directory, pending := [] } ∧
    swept.state.directory.isThere = written.isThere ∧
    (swept.state.invalidate now maxAge).state = swept.state ∧
    (swept.state.invalidate now maxAge).value = 0 ∧
    ∀ longer : Option Nat, maxAge.getD c.maxAge ≤ longer.getD c.maxAge →
      {name | (c.invalidate now longer).state.directory.find? name ≠ written.find? name} ⊆
        {name | swept.state.directory.find? name ≠ written.find? name} := by
  intro written stale swept
  obtain ⟨hgone, hkept, hvalue⟩ := c.invalidate_removes now maxAge
  obtain ⟨hstate, hthere⟩ := c.state_invalidate now maxAge
  -- The second call has the same limit, since the settings are the same, and no write to
  -- wait for.
  have hlimit : swept.state.ageLimit maxAge = c.ageLimit maxAge := by
    rw [show swept.state = _ from hstate]
    rfl
  have hpending : swept.state.pending = [] := by
    rw [show swept.state = _ from hstate]
  have hempty : staleFiles swept.state.directory (swept.state.ageLimit maxAge) now = ∅ := by
    rw [hlimit]
    exact c.staleFiles_invalidate now maxAge
  obtain ⟨hagain, hzero⟩ := invalidate_of_staleFiles_eq_empty hpending hempty
  refine ⟨hgone, hkept, hvalue, hstate, hthere, hagain, hzero, fun longer hle name hname => ?_⟩
  have hlonger : name ∈ staleFiles written (c.ageLimit longer) now := by
    by_contra hmem
    exact hname ((c.invalidate_removes now longer).2.1 name hmem)
  have hnone : swept.state.directory.find? name = none :=
    hgone name (Disk.staleFiles_mono (min_le_min_right _ hle) hlonger)
  obtain ⟨-, content, hfile, -⟩ := hlonger
  rw [Set.mem_ofPred_eq, hnone, hfile]
  exact nofun

/-- A cache on a directory with two unusable files and three entries, of which one is
    old at time 100 and one is from the future, between names of no entry files and a
    folder. Writes of an old entry and of a new one are pending. -/
def mixedCache : Cache where
  memory := .empty 1
  directory := .present
    [(".json", .file (.text "")), ("a.json", .file (.binary ⟨#[255]⟩)), ("b.json", .folder),
      ("c.d.json", .file (.text "")),
      ("e.json", .file (.text (Entry.print ⟨"ক", none, 89, .null⟩))),
      ("f.json", .file (.text (Entry.print ⟨"ক", none, 90, .null⟩))),
      ("g.json", .file (.text (Entry.print ⟨"ক", none, 101, .null⟩))), ("h.tmp", .file (.text ""))]
  pending := [⟨"i", ⟨"ক", none, 89, .null⟩⟩, ⟨"j", ⟨"ক", none, 90, .null⟩⟩]
  maxAge := 1000
  enabled := true

theorem invalidate_removes_exactly_stale_mixedCache :
    (mixedCache.invalidate 100 (some 10)).value = 4 ∧
    (mixedCache.invalidate 100 (some 10)).state.directory.names? =
      some ([".json", "b.json", "f.json", "g.json", "h.tmp", "j.json"].map String.toList) ∧
    ((mixedCache.invalidate 100 (some 10)).state.invalidate 100 (some 10)).value = 0 ∧
    (some 10).getD mixedCache.maxAge ≤ none.getD mixedCache.maxAge ∧
    {name | (mixedCache.invalidate 100 none).state.directory.find? name ≠
      mixedCache.flush.directory.find? name} ⊆
        {name | (mixedCache.invalidate 100 (some 10)).state.directory.find? name ≠
          mixedCache.flush.directory.find? name} := by
  have hswept : (mixedCache.invalidate 100 (some 10)).value = 4 ∧
      (mixedCache.invalidate 100 (some 10)).state.directory.names? =
        some ([".json", "b.json", "f.json", "g.json", "h.tmp", "j.json"].map String.toList) := by
    decide +kernel
  obtain ⟨-, -, -, -, -, -, hzero, hlonger⟩ :=
    invalidate_removes_exactly_stale mixedCache 100 (some 10)
  exact ⟨hswept.1, hswept.2, hzero, by decide, hlonger none (by decide)⟩

end Cache
end BanglaSource
