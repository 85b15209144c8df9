-- SUMMARY: What each operation on the memory tier and on the cache directory does to what can be found there.
import BanglaSource.Cache

/-!
# Memory and disk

Each operation is described by what is found afterwards under a key or a name, in
terms of what was found before. Everything else about the two tiers follows from
that.
-/
namespace BanglaSource

/-! ## Memory -/

namespace Memory

@[simp] theorem get?_empty (capacity : Nat) (key : Text) : (empty capacity).get? key = none := rfl

theorem get?_of_makeRoom {m : Memory} {key : Text} {e : Entry}
    (h : m.makeRoom.1.get? key = some e) : m.get? key = some e := by
  unfold makeRoom at h
  split at h
  · exact h
  · split at h
    · exact h
    · simp only [get?, Assoc.find?_erase] at h
      split at h
      · cases h
      · exact h

/-- After an insertion a key holds the new entry or what it held before. -/
theorem get?_of_insert {m : Memory} {key key' : Text} {e e' : Entry}
    (h : (m.insert key e).1.get? key' = some e') :
    (key = key' ∧ e = e') ∨ m.get? key' = some e' := by
  unfold insert at h
  split at h
  · exact .inr h
  · split at h
    · simp only [get?, Assoc.find?_insert] at h
      split at h
      · next hkey => exact .inl ⟨hkey, Option.some.inj h⟩
      · exact .inr h
    · simp only [get?, Assoc.find?_insert] at h
      split at h
      · next hkey => exact .inl ⟨hkey, Option.some.inj h⟩
      · exact .inr (get?_of_makeRoom h)

end Memory

/-! ## Directories -/

namespace Directory

theorem read_eq_text_iff {d : Directory} {name s : Text} :
    d.read name = .text s ↔ d.find? name = some (.file (.text s)) := by
  cases d with
  | present nodes =>
    simp only [read, find?]
    cases Assoc.find? name nodes with
    | none => simp
    | some node =>
      cases node with
      | folder => simp
      | file content => cases content <;> simp
  | _ => simp [read, find?]

theorem find?_create? {d d' : Directory} (h : d.create? = some d') (name : Text) :
    d'.find? name = d.find? name := by
  cases d <;> cases h <;> rfl

theorem find?_write? {d d' : Directory} {name : Text} {content : Content}
    (h : d.write? name content = some d') (other : Text) :
    d'.find? other = if name = other then some (.file content) else d.find? other := by
  cases d with
  | present nodes =>
    simp only [write?] at h
    split at h
    · cases h
    · cases h
      exact Assoc.find?_insert ..
  | _ => cases h

theorem find?_remove? {d d' : Directory} {name : Text} (h : d.remove? name = some d')
    (other : Text) : d'.find? other = if name = other then none else d.find? other := by
  cases d with
  | present nodes =>
    simp only [remove?] at h
    split at h
    · cases h
      exact Assoc.find?_erase ..
    · cases h
  | _ => cases h

theorem find?_rename? {d d' : Directory} {source target : Text}
    (h : d.rename? source target = some d') (other : Text) :
    d'.find? other =
      if target = other then d.find? source
      else if source = other then none else d.find? other := by
  cases d with
  | present nodes =>
    simp only [rename?] at h
    split at h
    · cases h
    · next hsource _ =>
      cases h
      simp only [find?, Assoc.find?_insert, Assoc.find?_erase, hsource]
    · cases h
  | _ => cases h

/-- A file is written into a directory, unless a folder has its name. -/
theorem isSome_write?_iff (d : Directory) (name : Text) (content : Content) :
    (d.write? name content).isSome = true ↔
      d.names?.isSome = true ∧ d.find? name ≠ some .folder := by
  cases d with
  | present nodes =>
    simp only [write?, names?, find?]
    split
    · next hfolder => simp [hfolder]
    · next hfolder => simpa using hfolder
  | _ => simp [write?, names?]

/-- Files are removed, and nothing else is. -/
theorem isSome_remove?_iff (d : Directory) (name : Text) :
    (d.remove? name).isSome = true ↔ ∃ content, d.find? name = some (.file content) := by
  cases d with
  | present nodes =>
    simp only [remove?, find?]
    split
    · next content hfile => simp [hfile]
    · next hfile => simpa using hfile
  | _ => simp [remove?, find?]

/-- Files are moved, unless a folder has their new name. -/
theorem isSome_rename?_iff (d : Directory) (source target : Text) :
    (d.rename? source target).isSome = true ↔
      (∃ content, d.find? source = some (.file content)) ∧ d.find? target ≠ some .folder := by
  cases d with
  | present nodes =>
    simp only [rename?, find?]
    split
    · next hfolder => simp [hfolder]
    · next content _ hfile hfolder => simpa [hfile] using hfolder
    · next hfile _ => simpa using fun content h => absurd h (hfile content)
  | _ => simp [rename?, find?]

theorem isThere_remove? {d d' : Directory} {name : Text} (h : d.remove? name = some d') :
    d'.isThere = d.isThere := by
  cases d with
  | present nodes =>
    simp only [remove?] at h
    split at h <;> cases h
    rfl
  | _ => cases h

theorem isSome_names?_create? {d d' : Directory} (h : d.create? = some d') :
    d'.names?.isSome = true := by
  cases d <;> cases h <;> rfl

theorem isSome_create?_rename? {d d' : Directory} {source target : Text}
    (h : d.rename? source target = some d') : d'.create?.isSome = true := by
  cases d with
  | present nodes =>
    simp only [rename?] at h
    split at h <;> cases h
    rfl
  | _ => cases h

theorem find?_createFolder? {d d' : Directory} {name : Text} (h : d.createFolder? name = some d')
    (other : Text) : d'.find? other = if name = other then some .folder else d.find? other := by
  cases d with
  | present nodes =>
    simp only [createFolder?] at h
    split at h
    · cases h
    · next hfolder =>
      cases h
      split
      · next heq => subst heq; exact hfolder
      · rfl
    · cases h
      exact Assoc.find?_insert ..
  | _ => cases h

theorem find?_removeAll? {d d' : Directory} (h : d.removeAll? = some d') (name : Text) :
    d'.find? name = none := by
  cases d <;> cases h <;> rfl

end Directory

/-! ## Disk -/

namespace Disk

theorem entryName_inj {key key' : Text} (h : entryName key = entryName key') : key = key' :=
  List.append_cancel_right h

theorem entryName_ne_temporaryName (key key' : Text) : entryName key ≠ temporaryName key' := by
  intro h
  have hlast : some 'n' = some 'p' := by
    simpa [entryName, temporaryName] using congrArg List.getLast? h
  exact absurd hlast (by decide)

theorem read_eq_entry_iff {d : Directory} {key : Text} {e : Entry} :
    read d key = .entry e ↔
      ∃ s, d.find? (entryName key) = some (.file (.text s)) ∧ Entry.parse? s = some e := by
  simp only [← Directory.read_eq_text_iff, read]
  cases d.read (entryName key) with
  | missing => simp
  | failed => simp
  | text s => cases hparse : Entry.parse? s <;> simp [hparse]

/-- The entry that was found, if there is one. -/
def Found.value? : Found → Option Entry
  | .entry e => some e
  | .missing | .unusable => none

/-- What is found under a key is what its file holds. -/
theorem value?_read (d : Directory) (key : Text) :
    (read d key).value? =
      match d.find? (entryName key) with
      | some (.file (.text s)) => Entry.parse? s
      | _ => none := by
  cases d with
  | present nodes =>
    simp only [read, Directory.read, Directory.find?]
    cases Assoc.find? (entryName key) nodes with
    | none => rfl
    | some node =>
      cases node with
      | folder => rfl
      | file content =>
        cases content with
        | binary bytes => rfl
        | text s =>
          dsimp only
          cases Entry.parse? s <;> rfl
  | _ => rfl

/-- The four ways in which a write can end: the directory cannot be created; a folder
    has the name of the temporary file; a folder has the name of the entry file, and the
    temporary file is removed again; or the entry is in its file. -/
theorem write_cases (d : Directory) (key : Text) (e : Entry) :
    (d.create? = none ∧ write d key e = (d, false)) ∨
    (∃ d', d.create? = some d' ∧ d.find? (temporaryName key) = some .folder ∧
      write d key e = (d', false)) ∨
    (∃ d', d.create?.isSome = true ∧ d.find? (temporaryName key) ≠ some .folder ∧
      d.find? (entryName key) = some .folder ∧ write d key e = (d', false) ∧
      ∀ name, d'.find? name = if temporaryName key = name then none else d.find? name) ∨
    (∃ d', d.create?.isSome = true ∧ d.find? (temporaryName key) ≠ some .folder ∧
      d.find? (entryName key) ≠ some .folder ∧ write d key e = (d', true) ∧
      d'.create?.isSome = true ∧
      ∀ name, d'.find? name =
        if entryName key = name then some (.file (.text e.print))
        else if temporaryName key = name then none else d.find? name) := by
  cases hcreate : d.create? with
  | none => exact .inl (by simp [write, hcreate])
  | some d₁ =>
    have h₁ := Directory.find?_create? hcreate
    have hwrites := d₁.isSome_write?_iff (temporaryName key) (.text e.print)
    rw [Directory.isSome_names?_create? hcreate, h₁] at hwrites
    cases hwrite : d₁.write? (temporaryName key) (.text e.print) with
    | none =>
      have hfolder : d.find? (temporaryName key) = some .folder := by simpa [hwrite] using hwrites
      exact .inr (.inl ⟨d₁, rfl, hfolder, by simp [write, hcreate, hwrite]⟩)
    | some d₂ =>
      have hfolder : d.find? (temporaryName key) ≠ some .folder := by simpa [hwrite] using hwrites
      have h₂ := Directory.find?_write? hwrite
      -- The move finds the temporary file, so only its new name can be in the way.
      have hrenames := d₂.isSome_rename?_iff (temporaryName key) (entryName key)
      rw [h₂, h₂, if_pos rfl, if_neg (entryName_ne_temporaryName key key).symm, h₁] at hrenames
      cases hrename : d₂.rename? (temporaryName key) (entryName key) with
      | none =>
        have hentry : d.find? (entryName key) = some .folder := by simpa [hrename] using hrenames
        obtain ⟨d₃, hremove⟩ := Option.isSome_iff_exists.1
          ((d₂.isSome_remove?_iff _).2 ⟨_, (h₂ (temporaryName key)).trans (if_pos rfl)⟩)
        refine .inr (.inr (.inl ⟨d₃, rfl, hfolder, hentry, ?_, fun name => ?_⟩))
        · simp [write, hcreate, hwrite, hrename, hremove]
        · rw [Directory.find?_remove? hremove, h₂, h₁]
          split <;> rfl
      | some d₃ =>
        have hentry : d.find? (entryName key) ≠ some .folder := by simpa [hrename] using hrenames
        refine .inr (.inr (.inr ⟨d₃, rfl, hfolder, hentry, ?_,
          Directory.isSome_create?_rename? hrename, fun name => ?_⟩))
        · simp [write, hcreate, hwrite, hrename]
        · rw [Directory.find?_rename? hrename, h₂, h₂, if_pos rfl, h₁]
          by_cases hname : temporaryName key = name <;> simp [hname]

/-- A write that succeeds puts the entry into its file. A write that fails changes
    at most the temporary file. -/
theorem find?_write (d : Directory) (key : Text) (e : Entry) {name : Text}
    (hname : name ≠ temporaryName key) :
    (write d key e).1.find? name =
      if (write d key e).2 = true ∧ entryName key = name then some (.file (.text e.print))
      else d.find? name := by
  rcases write_cases d key e with ⟨-, hwrite⟩ | ⟨d', hcreate, -, hwrite⟩ |
    ⟨d', -, -, -, hwrite, hfind⟩ | ⟨d', -, -, -, hwrite, -, hfind⟩ <;> rw [hwrite]
  · simp
  · simp [Directory.find?_create? hcreate]
  · simp [hfind, hname.symm]
  · simp [hfind, hname.symm]

end Disk

/-! ## Both tiers -/

namespace Cache

/-- A lookup misses, or finds an entry in memory, or finds one on disk and copies it
    into memory. -/
theorem get_cases (c : Cache) (source : Text) (options : Json) :
    ((c.get source options).value = none ∧ (c.get source options).state = c) ∨
    (∃ e, (c.get source options).value = some e ∧ (c.get source options).state = c ∧
      c.memory.get? (ContentKey.of source options) = some e) ∨
    (∃ e, (c.get source options).value = some e ∧
      (c.get source options).state =
        { c with memory := (c.memory.insert (ContentKey.of source options) e).1 } ∧
      c.memory.get? (ContentKey.of source options) = none ∧
      Disk.read c.directory (ContentKey.of source options) = .entry e) := by
  cases henabled : c.enabled with
  | false => exact .inl (by simp [get, henabled])
  | true =>
    cases hmemory : c.memory.get? (ContentKey.of source options) with
    | some e => exact .inr (.inl ⟨e, by simp [get, henabled, hmemory]⟩)
    | none =>
      cases hdisk : Disk.read c.directory (ContentKey.of source options) with
      | missing => exact .inl (by simp [get, henabled, hmemory, hdisk])
      | unusable => exact .inl (by simp [get, henabled, hmemory, hdisk])
      | entry e => exact .inr (.inr ⟨e, by simp [get, henabled, hmemory, hdisk]⟩)

/-- A lookup finds what memory holds, or else what the disk holds. -/
theorem value_get (c : Cache) (source : Text) (options : Json) :
    (c.get source options).value =
      if c.enabled then
        (c.memory.get? (ContentKey.of source options)).or
          (Disk.read c.directory (ContentKey.of source options)).value?
      else none := by
  cases henabled : c.enabled with
  | false => simp [get, henabled]
  | true =>
    cases hmemory : c.memory.get? (ContentKey.of source options) with
    | some e => simp [get, henabled, hmemory]
    | none =>
      cases hdisk : Disk.read c.directory (ContentKey.of source options) <;>
        simp [get, henabled, hmemory, hdisk, Disk.Found.value?]

/-- A store puts one new entry into memory and on its way to disk. -/
theorem state_set (c : Cache) (now : Nat) (source : Text) (options : Json) (output : Text)
    (map : Option Json) :
    (c.set now source options output map).state =
      if c.enabled then
        { c with
          memory := (c.memory.insert (ContentKey.of source options)
            (Entry.new now options output map)).1
          pending := c.pending ++
            [⟨ContentKey.of source options, Entry.new now options output map⟩] }
      else c := by
  cases henabled : c.enabled <;> simp [set, henabled]

/-- Clearing empties memory, waits for pending writes, and removes the directory if it
    can be removed. -/
theorem state_clear (c : Cache) :
    c.clear.state =
      { c with
        memory := c.memory.clear
        directory := c.flush.directory.removeAll?.getD c.flush.directory
        pending := [] } := by
  unfold Cache.clear
  dsimp only
  split
  · next directory hremove =>
    simp only [hremove, Option.getD_some]
    rfl
  · next hremove =>
    simp only [hremove, Option.getD_none]
    rfl

theorem state_stats (c : Cache) : c.stats.state = c.flush := by
  unfold Cache.stats
  dsimp only
  split <;> rfl

/-! ## The background writer -/

theorem writeNext_of_pending_eq_cons {c : Cache} {job : Disk.Job} {jobs : List Disk.Job}
    (h : c.pending = job :: jobs) :
    c.writeNext =
      { c with directory := (Disk.write c.directory job.key job.entry).1, pending := jobs } := by
  rw [writeNext, h]

theorem flush_of_pending_eq_nil {c : Cache} (h : c.pending = []) : c.flush = c := by
  cases c with
  | mk memory directory pending maxAge enabled =>
    cases h
    rfl

/-- Waiting is letting the writer go on: what it has done before makes no difference. -/
theorem flush_writeNext (c : Cache) : c.writeNext.flush = c.flush := by
  cases hpending : c.pending with
  | nil => rw [writeNext, hpending]
  | cons job jobs =>
    rw [writeNext_of_pending_eq_cons hpending, flush, flush, hpending]
    rfl

/-- What each step of the writer keeps holds when no write is pending any more. -/
theorem flush_induction {P : Cache → Prop} {c : Cache} (h : P c)
    (hwrite : ∀ c, P c → P c.writeNext) : P c.flush := by
  induction hpending : c.pending generalizing c with
  | nil => rwa [flush_of_pending_eq_nil hpending]
  | cons job jobs ih =>
    rw [← flush_writeNext]
    exact ih (hwrite c h) (by rw [writeNext_of_pending_eq_cons hpending])

end Cache
end BanglaSource
