-- SUMMARY: On a working directory the cache holds the entries stored last: on disk or on their way there, and some of them in memory.
import BanglaSource.Proofs.CacheTiers
import BanglaSource.Proofs.EntryRoundTrip
import Mathlib.Logic.Function.Basic

/-!
# Coherence of memory and disk

What a cache holds is a map from keys to entries. The disk tier has it once all pending
writes are done, in one file for each key, and the memory tier copies a part of it.
Stores update the map under one key, clearing empties it, and the background writer does
not change it. Lookups read it, if they find the key in memory or no write under the key
is pending. Otherwise the disk is behind the map, and what is read there is an older
entry or none.

What is kept track of in an entry is a parameter: the whole of it, or only that there is
one. In the second case an older entry is as good as the last one, so every lookup keeps
memory coherent.
-/
namespace BanglaSource

variable {β : Type} {view : Entry → β} {stored : Text → Option β}

/-! ## Memory -/

namespace Memory

/-- Whether the memory tier holds nothing but stored entries. A tier of capacity zero
    holds nothing at all. -/
structure Copies (view : Entry → β) (stored : Text → Option β) (m : Memory) : Prop where
  get? : ∀ key e, m.get? key = some e → stored key = some (view e)
  zero : m.capacity = 0 → ∀ key, m.get? key = none

theorem capacity_makeRoom (m : Memory) : m.makeRoom.1.capacity = m.capacity := by
  unfold makeRoom
  split
  · rfl
  · split <;> rfl

theorem capacity_insert (m : Memory) (key : Text) (e : Entry) :
    (m.insert key e).1.capacity = m.capacity := by
  unfold insert
  split
  · rfl
  · split
    · rfl
    · exact m.capacity_makeRoom

theorem get?_insert_self {m : Memory} (h : m.capacity ≠ 0) (key : Text) (e : Entry) :
    (m.insert key e).1.get? key = some e := by
  unfold insert
  rw [if_neg h]
  split <;> simp [Memory.get?, Assoc.find?_insert]

variable {m : Memory}

theorem copies_empty (view : Entry → β) (stored : Text → Option β) (capacity : Nat) :
    (empty capacity).Copies view stored where
  get? := by simp
  zero := by simp

/-- An insertion replaces the copy of an older entry, or there is no copy. -/
theorem Copies.insert (h : m.Copies view stored) (key : Text) (e : Entry) :
    (m.insert key e).1.Copies view (Function.update stored key (some (view e))) := by
  by_cases hzero : m.capacity = 0
  · have hsame : (m.insert key e).1 = m := by simp [Memory.insert, hzero]
    rw [hsame]
    exact ⟨fun key' e' he' => by simp [h.zero hzero key'] at he', h.zero⟩
  · refine ⟨fun key' e' he' => ?_, fun hcapacity => ?_⟩
    · by_cases hkey : key' = key
      · subst hkey
        rw [get?_insert_self hzero] at he'
        cases he'
        rw [Function.update_self]
      · rw [Function.update_of_ne hkey]
        rcases get?_of_insert he' with ⟨heq, -⟩ | hold
        · exact absurd heq.symm hkey
        · exact h.get? key' e' hold
    · rw [capacity_insert] at hcapacity
      exact absurd hcapacity hzero

end Memory

/-! ## Disk -/

namespace Directory

/-- Whether files can be written: the directory is there or can be created. -/
def IsWorking (d : Directory) : Prop :=
  d.create?.isSome = true

theorem isWorking_iff {d : Directory} :
    d.IsWorking ↔ d = .missing ∨ ∃ nodes, d = .present nodes := by
  cases d <;> simp [IsWorking, create?]

end Directory

namespace Disk

theorem temporaryName_inj {key key' : Text} (h : temporaryName key = temporaryName key') :
    key = key' :=
  List.append_cancel_right h

/-- A write succeeds if no folder stands in its way. It leaves a working directory
    without the temporary file. -/
theorem write_of_isWorking {d : Directory} (h : d.IsWorking) {key : Text}
    (htemporary : d.find? (temporaryName key) ≠ some .folder)
    (hentry : d.find? (entryName key) ≠ some .folder) (e : Entry) :
    (write d key e).2 = true ∧ (write d key e).1.IsWorking ∧
      (write d key e).1.find? (temporaryName key) = none := by
  rcases write_cases d key e with ⟨hcreate, -⟩ | ⟨_, -, hfolder, -⟩ | ⟨_, -, -, hfolder, -⟩ |
    ⟨d', -, -, -, hwrite, hworking, hfind⟩
  · rw [Directory.IsWorking, hcreate] at h
    cases h
  · exact absurd hfolder htemporary
  · exact absurd hfolder hentry
  · have hgone := hfind (temporaryName key)
    rw [if_neg (entryName_ne_temporaryName key key), if_pos rfl] at hgone
    rw [hwrite]
    exact ⟨rfl, hworking, hgone⟩

/-- Whether exactly the stored entries are read from a directory, into which every entry
    can be written. -/
structure Keeps (view : Entry → β) (stored : Text → Option β) (d : Directory) : Prop where
  working : d.IsWorking
  entry : ∀ key, d.find? (entryName key) ≠ some .folder
  temporary : ∀ key, d.find? (temporaryName key) ≠ some .folder
  read : ∀ key, (read d key).value?.map view = stored key

variable {d : Directory}

theorem keeps_of_fresh (view : Entry → β) (hworking : d.IsWorking)
    (hfresh : ∀ key, d.find? (entryName key) = none ∧ d.find? (temporaryName key) = none) :
    Keeps view (fun _ => none) d where
  working := hworking
  entry key := by simp [(hfresh key).1]
  temporary key := by simp [(hfresh key).2]
  read key := by rw [value?_read, (hfresh key).1]; rfl

/-- A write puts what is read back from its file under its key. -/
theorem Keeps.write (h : Keeps view stored d) (key : Text) {e e' : Entry}
    (hparse : Entry.parse? e.print = some e') :
    Keeps view (Function.update stored key (some (view e'))) (write d key e).1 := by
  obtain ⟨hdone, hworking, htemporary⟩ :=
    write_of_isWorking h.working (h.temporary key) (h.entry key) e
  have hfind : ∀ key', (Disk.write d key e).1.find? (entryName key') =
      if key = key' then some (.file (.text e.print)) else d.find? (entryName key') := by
    intro key'
    rw [find?_write _ _ _ (entryName_ne_temporaryName key' key)]
    by_cases hkey : key = key'
    · rw [if_pos hkey, if_pos ⟨hdone, congrArg entryName hkey⟩]
    · rw [if_neg hkey, if_neg fun heq => hkey (entryName_inj heq.2)]
  refine ⟨hworking, fun key' => ?_, fun key' => ?_, fun key' => ?_⟩
  · rw [hfind]
    split
    · simp
    · exact h.entry key'
  · by_cases hkey : key' = key
    · rw [hkey, htemporary]
      exact nofun
    · rw [find?_write _ _ _ fun heq => hkey (temporaryName_inj heq),
        if_neg fun hname => entryName_ne_temporaryName key key' hname.2]
      exact h.temporary key'
  · rw [value?_read, hfind]
    by_cases hkey : key = key'
    · simp [hkey, hparse]
    · rw [if_neg hkey, ← value?_read, h.read, Function.update_of_ne (Ne.symm hkey)]

theorem Keeps.removeAll? (h : Keeps view stored d) :
    d.removeAll? = some .missing ∧ Keeps view (fun _ => none) .missing := by
  constructor
  · rcases Directory.isWorking_iff.1 h.working with rfl | ⟨nodes, rfl⟩ <;> rfl
  · exact keeps_of_fresh view rfl fun key => ⟨rfl, rfl⟩

/-! ## Writes on their way -/

namespace Job

/-- Whether what is kept track of in the entry is read back from its file. -/
def Survives (view : Entry → β) (job : Job) : Prop :=
  ∃ e, Entry.parse? job.entry.print = some e ∧ view e = view job.entry

/-- The map after a write. -/
def update (view : Entry → β) (stored : Text → Option β) (job : Job) : Text → Option β :=
  Function.update stored job.key (some (view job.entry))

/-- Writes change nothing under other keys than their own. -/
theorem foldl_update_of_ne {jobs : List Job} {key : Text} (h : ∀ job ∈ jobs, job.key ≠ key)
    (stored : Text → Option β) : jobs.foldl (update view) stored key = stored key := by
  induction jobs generalizing stored with
  | nil => rfl
  | cons job jobs ih =>
    rw [List.forall_mem_cons] at h
    rw [List.foldl_cons, ih h.2, update, Function.update_of_ne h.1.symm]

/-- After writes there is an entry where there was one, and where one was written. -/
theorem isSome_foldl_update {jobs : List Job} {key : Text}
    (h : (stored key).isSome = true ∨ ∃ job ∈ jobs, job.key = key) :
    (jobs.foldl (update view) stored key).isSome = true := by
  induction jobs generalizing stored with
  | nil => simpa using h
  | cons job jobs ih =>
    refine ih ?_
    by_cases hkey : job.key = key
    · simp [update, ← hkey]
    · rw [update, Function.update_of_ne (Ne.symm hkey)]
      rcases h with h | ⟨job', hjob', rfl⟩
      · exact .inl h
      · rcases List.mem_cons.1 hjob' with rfl | hjob'
        · exact absurd rfl hkey
        · exact .inr ⟨job', hjob', rfl⟩

end Job
end Disk

/-! ## Both tiers -/

namespace Cache

variable {c : Cache}

/-- Whether a cache holds exactly the stored entries, once the pending writes are done. -/
structure Holds (view : Entry → β) (stored : Text → Option β) (c : Cache) : Prop where
  memory : c.memory.Copies view stored
  disk : ∃ written, Disk.Keeps view written c.directory ∧
    c.pending.foldl (Disk.Job.update view) written = stored
  survives : ∀ job ∈ c.pending, job.Survives view

/-- Whether a lookup under a key has no need to wait: the key is in memory, or no write
    under it is pending. -/
def Settled (c : Cache) (key : Text) : Prop :=
  (c.memory.get? key).isSome = true ∨ ∀ job ∈ c.pending, job.key ≠ key

theorem settled_of_pending_eq_nil (h : c.pending = []) (key : Text) : c.Settled key :=
  .inr (by simp [h])

/-- A lookup that does not wait although it had to finds what the disk has by then. -/
theorem value_get_of_not_settled {source : Text} {options : Json} (henabled : c.enabled = true)
    (hsettled : ¬ c.Settled (ContentKey.of source options)) :
    (c.get source options).value =
      (Disk.read c.directory (ContentKey.of source options)).value? := by
  rw [Settled, not_or] at hsettled
  have hmemory : c.memory.get? (ContentKey.of source options) = none := by
    simpa using hsettled.1
  rw [value_get, if_pos henabled, hmemory, Option.none_or]

theorem holds_new (config : CacheConfig) {d : Directory} (h : Disk.Keeps view stored d) :
    (new config d).Holds view stored where
  memory := Memory.copies_empty view stored config.memoryCapacity
  disk := ⟨stored, h, rfl⟩
  survives := by simp [new]

theorem Holds.keeps (h : c.Holds view stored) (hpending : c.pending = []) :
    Disk.Keeps view stored c.directory := by
  obtain ⟨written, hkeeps, rfl⟩ := h.disk
  rwa [hpending]

/-- The disk has the stored entry under a key that no pending write is under. -/
theorem Holds.read_of_ne (h : c.Holds view stored) {key : Text}
    (hkey : ∀ job ∈ c.pending, job.key ≠ key) :
    (Disk.read c.directory key).value?.map view = stored key := by
  obtain ⟨written, hkeeps, rfl⟩ := h.disk
  rw [hkeeps.read, Disk.Job.foldl_update_of_ne hkey]

/-- Whatever the disk has under a key, an entry is stored under it. -/
theorem Holds.isSome_of_read (h : c.Holds view stored) {key : Text}
    (hread : (Disk.read c.directory key).value?.isSome = true) :
    (stored key).isSome = true := by
  obtain ⟨written, hkeeps, rfl⟩ := h.disk
  refine Disk.Job.isSome_foldl_update (.inl ?_)
  rwa [← hkeeps.read, Option.isSome_map]

/-- An entry is stored under a key that a lookup would have to wait for. -/
theorem Holds.isSome_of_not_settled (h : c.Holds view stored) {key : Text}
    (hsettled : ¬ c.Settled key) : (stored key).isSome = true := by
  obtain ⟨written, -, rfl⟩ := h.disk
  rw [Settled, not_or] at hsettled
  exact Disk.Job.isSome_foldl_update (.inr (by simpa using hsettled.2))

/-- A lookup keeps the map, if what it copies from disk into memory is up to date. -/
theorem Holds.get (h : c.Holds view stored) {source : Text} {options : Json}
    (hread : c.memory.get? (ContentKey.of source options) = none →
      ∀ e, Disk.read c.directory (ContentKey.of source options) = .entry e →
        stored (ContentKey.of source options) = some (view e)) :
    (c.get source options).state.Holds view stored := by
  rcases c.get_cases source options with
    ⟨-, hstate⟩ | ⟨e, -, hstate, -⟩ | ⟨e, -, hstate, hmemory, hdisk⟩
  · rwa [hstate]
  · rwa [hstate]
  · have hcopy := h.memory.insert (ContentKey.of source options) e
    rw [← hread hmemory e hdisk, Function.update_eq_self] at hcopy
    rw [hstate]
    exact ⟨hcopy, h.disk, h.survives⟩

/-- A lookup that has no need to wait finds what is stored. -/
theorem Holds.get_of_settled (h : c.Holds view stored) {source : Text} {options : Json}
    (hsettled : c.enabled = true → c.Settled (ContentKey.of source options)) :
    (c.get source options).state.Holds view stored ∧
    (c.get source options).value.map view =
      if c.enabled then stored (ContentKey.of source options) else none := by
  cases henabled : c.enabled with
  | false => simpa [Cache.get, henabled] using h
  | true =>
    rw [value_get, henabled, if_pos rfl, if_pos rfl]
    rcases hsettled henabled with hmemory | hkey
    · obtain ⟨e, he⟩ := Option.isSome_iff_exists.1 hmemory
      refine ⟨h.get fun hnone => by simp [he] at hnone, ?_⟩
      rw [he, Option.some_or, Option.map_some, h.memory.get? _ e he]
    · have hdisk := h.read_of_ne hkey
      refine ⟨h.get fun _ e he => ?_, ?_⟩
      · rw [← hdisk, he]
        rfl
      · cases hmemory : c.memory.get? (ContentKey.of source options) with
        | none => rw [Option.none_or, hdisk]
        | some e => rw [Option.some_or, Option.map_some, h.memory.get? _ e hmemory]

theorem Holds.set (h : c.Holds view stored) {now : Nat} {source : Text} {options : Json}
    {output : Text} {map : Option Json}
    (hsurvives : Disk.Job.Survives view
      ⟨ContentKey.of source options, Entry.new now options output map⟩) :
    (c.set now source options output map).state.Holds view
      (if c.enabled then Function.update stored (ContentKey.of source options)
        (some (view (Entry.new now options output map))) else stored) := by
  rw [state_set]
  split
  · obtain ⟨written, hkeeps, rfl⟩ := h.disk
    refine ⟨h.memory.insert _ _, ⟨written, hkeeps, ?_⟩, ?_⟩
    · rw [List.foldl_append]
      rfl
    · rw [List.forall_mem_append, List.forall_mem_singleton]
      exact ⟨h.survives, hsurvives⟩
  · exact h

/-- The background writer does not change what is held. -/
theorem Holds.writeNext (h : c.Holds view stored) : c.writeNext.Holds view stored := by
  cases hpending : c.pending with
  | nil => rwa [Cache.writeNext, hpending]
  | cons job jobs =>
    obtain ⟨written, hkeeps, rfl⟩ := h.disk
    have hsurvives := h.survives
    rw [hpending, List.forall_mem_cons] at hsurvives
    obtain ⟨⟨e, hparse, hview⟩, hjobs⟩ := hsurvives
    have hwritten := hkeeps.write job.key hparse
    rw [hview] at hwritten
    rw [writeNext_of_pending_eq_cons hpending]
    exact ⟨h.memory, ⟨_, hwritten, by rw [hpending]; rfl⟩, hjobs⟩

theorem Holds.flush (h : c.Holds view stored) : c.flush.Holds view stored :=
  flush_induction h fun _ h => h.writeNext

theorem Holds.clear (h : c.Holds view stored) : c.clear.state.Holds view fun _ => none := by
  obtain ⟨hremove, hmissing⟩ := (h.flush.keeps rfl).removeAll?
  rw [state_clear, hremove]
  exact ⟨Memory.copies_empty _ _ _, ⟨_, hmissing, rfl⟩, by simp⟩

theorem Holds.reopen (h : c.Holds view stored) (config : CacheConfig) :
    (new config c.flush.directory).Holds view stored :=
  holds_new config (h.flush.keeps rfl)

theorem enabled_get (c : Cache) (source : Text) (options : Json) :
    (c.get source options).state.enabled = c.enabled := by
  rcases c.get_cases source options with ⟨-, hstate⟩ | ⟨e, -, hstate, -⟩ | ⟨e, -, hstate, -⟩ <;>
    rw [hstate]

theorem enabled_set (c : Cache) (now : Nat) (source : Text) (options : Json) (output : Text)
    (map : Option Json) : (c.set now source options output map).state.enabled = c.enabled := by
  rw [state_set]
  split <;> rfl

theorem enabled_writeNext (c : Cache) : c.writeNext.enabled = c.enabled := by
  unfold writeNext
  split <;> rfl

theorem enabled_clear (c : Cache) : c.clear.state.enabled = c.enabled := by
  rw [state_clear]

end Cache
end BanglaSource
