-- SUMMARY: The cache is transparent: every run of a session gives the answers that it gives with caching off.
import BanglaSource.Proofs.CacheEntries
import BanglaSource.Proofs.Invalidation
import BanglaSource.Session
import Mathlib.Data.List.Nodup

/-!
# Transparency of the cache

A cache is sound if every entry in it, in memory, on disk or on its way there, holds
the answer to a request with its key. Each step of a session keeps the cache sound,
those of the background writer included, and from a sound cache a request gets the
answer that it would get without one. So a run that starts with an empty cache gives
the same answers with caching on and off, whenever its writes are done.
-/
namespace BanglaSource

/-! ## Answers -/

/-- Whether the position maps of a backend survive being stored. -/
def Backend.IsStorable (backend : Backend) : Prop :=
  ∀ target file c, backend target file = .ok c →
    ∀ m ∈ c.map, m ≠ .null ∧ m.Whole Json.Numeral.Fits

namespace Request

/-- The answer to a request as it is worked out. -/
def answer (backend : Backend) : Request → Except Failure Compiled
  | preprocess source keepNames => .ok ⟨targetText keepNames source, none⟩
  | transpile source file keepNames => Pipeline.compile backend source file keepNames

/-- The position map in an answer is one of the backend, with the source attached. -/
theorem exists_map_of_answer {backend : Backend} {r : Request} {c : Compiled}
    (h : r.answer backend = .ok c) {m : Json} (hm : m ∈ c.map) :
    ∃ target file c₀ m₀, backend target file = .ok c₀ ∧ m₀ ∈ c₀.map ∧
      m = Pipeline.attachSource r.source m₀ := by
  cases r with
  | preprocess source keepNames =>
    cases h
    cases hm
  | transpile source file keepNames =>
    simp only [answer, Pipeline.compile] at h
    split at h
    · cases h
    · next compiled hcompiled =>
      cases h
      obtain ⟨m₀, hm₀, rfl⟩ := Option.map_eq_some_iff.1 hm
      exact ⟨_, file, compiled, m₀, hcompiled, hm₀, rfl⟩

theorem isMap_answer {backend : Backend} (hbackend : backend.IsStorable) {r : Request}
    {c : Compiled} (h : r.answer backend = .ok c) : ∀ m ∈ c.map, m.IsMap := by
  intro m hm
  obtain ⟨target, file, c₀, m₀, hc₀, hm₀, rfl⟩ := exists_map_of_answer h hm
  obtain ⟨hnull, hwhole⟩ := hbackend target file c₀ hc₀ m₀ hm₀
  exact Pipeline.isMap_attachSource hnull hwhole r.source

end Request

/-! ## Sound caches -/

/-- Whether an entry holds the answer to one of the requests with the given key. -/
def Entry.Answers (backend : Backend) (requests : List Request) (key : Text) (e : Entry) : Prop :=
  ∃ r ∈ requests, r.key = key ∧ r.answer backend = .ok ⟨e.output, e.positionMap⟩

/-- Every entry in memory and every one that can be read from disk, now or when the
    pending writes are done, is an answer to a request with its key. -/
structure Cache.Sound (backend : Backend) (requests : List Request) (c : Cache) : Prop where
  memory : ∀ key e, c.memory.get? key = some e → e.Answers backend requests key
  disk : ∀ key e, Disk.read c.directory key = .entry e → e.Answers backend requests key
  pending : ∀ job ∈ c.pending, ∀ e, Entry.parse? job.entry.print = some e →
    e.Answers backend requests job.key

/-- No two requests have the same key unless they have the same key text. -/
def Request.Separated (requests : List Request) : Prop :=
  ∀ r ∈ requests, ∀ r' ∈ requests,
    ContentKey.hash r.keyText = ContentKey.hash r'.keyText → r.keyText = r'.keyText

variable {backend : Backend} {requests : List Request}

theorem Entry.Answers.eq {e : Entry} {r : Request} (h : e.Answers backend requests r.key)
    (hseparated : Request.Separated requests) (hr : r ∈ requests) :
    r.answer backend = .ok ⟨e.output, e.positionMap⟩ := by
  obtain ⟨r', hr', hkey, hanswer⟩ := h
  rwa [← Request.keyText_injective (hseparated r' hr' r hr hkey)]

namespace Cache

/-- A cache that holds nothing new is still sound. -/
theorem Sound.mono {c c' : Cache} (h : c.Sound backend requests)
    (hmemory : ∀ key e, c'.memory.get? key = some e → c.memory.get? key = some e)
    (hdisk : ∀ name s, c'.directory.find? name = some (.file (.text s)) →
      c.directory.find? name = some (.file (.text s)))
    (hpending : ∀ job ∈ c'.pending, job ∈ c.pending) :
    c'.Sound backend requests where
  memory key e he := h.memory key e (hmemory key e he)
  disk key e he := by
    obtain ⟨s, hs, hparse⟩ := Disk.read_eq_entry_iff.1 he
    exact h.disk key e (Disk.read_eq_entry_iff.2 ⟨s, hdisk _ s hs, hparse⟩)
  pending job hjob := h.pending job (hpending job hjob)

theorem sound_new (config : CacheConfig) {directory : Directory}
    (hempty : ∀ name, directory.find? name = none) :
    (new config directory).Sound backend requests where
  memory key e he := by simp [new] at he
  disk key e he := by
    obtain ⟨s, hs, -⟩ := Disk.read_eq_entry_iff.1 he
    rw [show (new config directory).directory = directory from rfl, hempty] at hs
    cases hs
  pending := by simp [new]

theorem Sound.get {c : Cache} (h : c.Sound backend requests) (source : Text) (options : Json) :
    (c.get source options).state.Sound backend requests ∧
    ∀ e ∈ (c.get source options).value,
      e.Answers backend requests (ContentKey.of source options) := by
  rcases c.get_cases source options with
    ⟨hvalue, hstate⟩ | ⟨e, hvalue, hstate, hmemory⟩ | ⟨e, hvalue, hstate, -, hdisk⟩
  · rw [hvalue, hstate]
    exact ⟨h, by simp⟩
  · rw [hvalue, hstate]
    exact ⟨h, by simpa using h.memory _ e hmemory⟩
  · have hanswers := h.disk _ e hdisk
    rw [hvalue, hstate]
    refine ⟨⟨?_, h.disk, h.pending⟩, by simpa using hanswers⟩
    intro key e' he'
    rcases Memory.get?_of_insert he' with ⟨rfl, rfl⟩ | he'
    · exact hanswers
    · exact h.memory key e' he'

/-- The answer to a request can be stored. -/
theorem Sound.set {c : Cache} (h : c.Sound backend requests) (hbackend : backend.IsStorable)
    {r : Request} (hr : r ∈ requests) {output : Text} {map : Option Json}
    (hanswer : r.answer backend = .ok ⟨output, map⟩) (now : Nat) :
    (c.set now r.source r.keyOptions output map).state.Sound backend requests := by
  have hmap : ∀ m ∈ map, m.IsMap := Request.isMap_answer hbackend hanswer
  have hcanonical : map.map Json.canonical = map := by
    cases map with
    | none => rfl
    | some m => rw [Option.map_some, (hmap m rfl).canonical]
  have hnew : Entry.new now r.keyOptions output map =
      ⟨output, map, now, r.keyOptions⟩ := by
    rw [Entry.new, hcanonical, r.canonical_keyOptions]
  rw [state_set]
  split
  · refine ⟨fun key e he => ?_, h.disk, fun job hjob e hparse => ?_⟩
    · rcases Memory.get?_of_insert he with ⟨rfl, rfl⟩ | he
      · exact ⟨r, hr, rfl, by rw [hanswer, hnew]⟩
      · exact h.memory key e he
    · rcases List.mem_append.1 hjob with hjob | hjob
      · exact h.pending job hjob e hparse
      · obtain rfl := List.mem_singleton.1 hjob
        have hstored := Entry.parse?_print (by rw [hnew]; exact hmap)
          (by rw [hnew]; exact r.whole_keyOptions _) hparse
        rw [hnew] at hstored
        exact ⟨r, hr, rfl, by rw [hanswer, hstored.1, hstored.2]⟩
  · exact h

/-- A write puts an answer on disk, or fails and changes no entry file. -/
theorem Sound.writeNext {c : Cache} (h : c.Sound backend requests) :
    c.writeNext.Sound backend requests := by
  cases hpending : c.pending with
  | nil => rwa [Cache.writeNext, hpending]
  | cons job jobs =>
    have hjobs := h.pending
    rw [hpending, List.forall_mem_cons] at hjobs
    rw [writeNext_of_pending_eq_cons hpending]
    refine ⟨h.memory, fun key e he => ?_, hjobs.2⟩
    obtain ⟨s, hs, hparse⟩ := Disk.read_eq_entry_iff.1 he
    rw [Disk.find?_write _ _ _ (Disk.entryName_ne_temporaryName _ _)] at hs
    split at hs
    · next hwritten =>
      cases hs
      rw [← Disk.entryName_inj hwritten.2]
      exact hjobs.1 e hparse
    · exact h.disk key e (Disk.read_eq_entry_iff.2 ⟨s, hs, hparse⟩)

theorem Sound.flush {c : Cache} (h : c.Sound backend requests) : c.flush.Sound backend requests :=
  flush_induction h fun _ h => h.writeNext

theorem Sound.invalidate {c : Cache} (h : c.Sound backend requests) (now : Nat)
    (maxAge : Option Nat) : (c.invalidate now maxAge).state.Sound backend requests := by
  refine h.flush.mono (fun key e he => ?_) (fun _ _ hs => find?_of_invalidate hs) ?_
  · rwa [(c.state_invalidate now maxAge).1] at he
  · rw [(c.state_invalidate now maxAge).1]
    simp

theorem Sound.clear {c : Cache} (h : c.Sound backend requests) :
    c.clear.state.Sound backend requests := by
  rw [state_clear]
  refine h.flush.mono (by simp [Memory.clear]) (fun name s hs => ?_) (by simp)
  cases hremove : c.flush.directory.removeAll? with
  | some directory =>
    rw [hremove, Option.getD_some, Directory.find?_removeAll? hremove] at hs
    cases hs
  | none => rwa [hremove] at hs

end Cache

/-! ## Pipelines -/

/-- The output of a transpilation, apart from where it comes from. -/
def Transpiled.compiled (t : Transpiled) : Compiled :=
  ⟨t.code, t.map⟩

namespace Pipeline

/-- A pipeline with the given backend and a sound cache. -/
structure Sound (backend : Backend) (requests : List Request) (p : Pipeline) : Prop where
  backend_eq : p.backend = backend
  cache : p.cache.Sound backend requests

theorem Sound.lookup {p : Pipeline} (h : p.Sound backend requests)
    (hseparated : Request.Separated requests) {r : Request} (hr : r ∈ requests)
    (useCache : Bool) :
    (p.lookup useCache r).state.Sound backend requests ∧
    ∀ e ∈ (p.lookup useCache r).value, r.answer backend = .ok ⟨e.output, e.positionMap⟩ := by
  cases useCache with
  | false => exact ⟨h, by simp [Pipeline.lookup]⟩
  | true =>
    obtain ⟨hstate, hvalue⟩ := h.cache.get r.source r.keyOptions
    exact ⟨⟨h.backend_eq, hstate⟩, fun e he => (hvalue e he).eq hseparated hr⟩

theorem Sound.store {p : Pipeline} (h : p.Sound backend requests) (hbackend : backend.IsStorable)
    {r : Request} (hr : r ∈ requests) {output : Text} {map : Option Json}
    (hanswer : r.answer backend = .ok ⟨output, map⟩) (now : Nat) (useCache : Bool) :
    (p.store now useCache r output map).state.Sound backend requests := by
  cases useCache with
  | false => exact h
  | true => exact ⟨h.backend_eq, h.cache.set hbackend hr hanswer now⟩

theorem Sound.preprocess {p : Pipeline} (h : p.Sound backend requests)
    (hbackend : backend.IsStorable) (hseparated : Request.Separated requests) {source : Text}
    {options : Options} (hr : .preprocess source options.keepNames ∈ requests) (now : Nat) :
    (p.preprocess now source options).state.Sound backend requests ∧
    (p.preprocess now source options).value.text = targetText options.keepNames source := by
  obtain ⟨hstate, hvalue⟩ := h.lookup hseparated hr options.useCache
  cases hfound : (p.lookup options.useCache (.preprocess source options.keepNames)).value with
  | some e =>
    have hanswer := hvalue e hfound
    simp only [Request.answer, Except.ok.injEq, Compiled.mk.injEq] at hanswer
    simp only [Pipeline.preprocess, hfound]
    exact ⟨hstate, hanswer.1.symm⟩
  | none =>
    simp only [Pipeline.preprocess, hfound]
    exact ⟨hstate.store hbackend hr rfl now options.useCache, trivial⟩

/-- The output of a transpilation as it is worked out. -/
def direct (backend : Backend) (source file : Text) (keepNames : Bool) :
    Except Failure Compiled :=
  if Text.isBlankText source then .ok ⟨[], none⟩ else compile backend source file keepNames

theorem Sound.transpile {p : Pipeline} (h : p.Sound backend requests)
    (hbackend : backend.IsStorable) (hseparated : Request.Separated requests)
    {source file : Text} {options : Options}
    (hr : .transpile source file options.keepNames ∈ requests) (now : Nat) :
    (p.transpile now source file options).state.Sound backend requests ∧
    (p.transpile now source file options).value.map Transpiled.compiled =
      direct backend source file options.keepNames := by
  by_cases hblank : Text.isBlankText source = true
  · simp only [Pipeline.transpile, direct, hblank, if_true]
    exact ⟨h, rfl⟩
  · obtain ⟨hstate, hvalue⟩ := h.lookup hseparated hr options.useCache
    simp only [Pipeline.transpile, direct, hblank, Bool.false_eq_true, if_false]
    generalize p.lookup options.useCache (.transpile source file options.keepNames) = found
      at hstate hvalue
    obtain ⟨rfl, hcache⟩ := hstate
    cases hfound : found.value with
    | some e => exact ⟨⟨rfl, hcache⟩, (hvalue e hfound).symm⟩
    | none =>
      cases hcompile : compile found.state.backend source file options.keepNames with
      | error failure => exact ⟨⟨rfl, hcache⟩, rfl⟩
      | ok c =>
        have hcalled : Sound found.state.backend requests
            { found.state with calls := found.state.calls + 1 } := ⟨rfl, hcache⟩
        exact ⟨hcalled.store hbackend hr hcompile now options.useCache, rfl⟩

end Pipeline

/-! ## Steps -/

/-- What a request is answered, apart from where the answer comes from. -/
inductive Answer where
  | text (value : Text)
  | output (value : Except Failure Compiled)

/-- The answer in a reply to a request. -/
def Reply.answer? : Reply → Option Answer
  | .preprocessed answer => some (.text answer.text)
  | .transpiled answer _ => some (.output (answer.map Transpiled.compiled))
  | _ => none

namespace Step

/-- The request that a step makes. -/
def request? : Step → Option Request
  | .preprocess source options => some (.preprocess source options.keepNames)
  | .transpile source file options => some (.transpile source file options.keepNames)
  | _ => none

/-- Whether a step puts content of its own into the cache or its directory. -/
def isForeign : Step → Bool
  | .set .. | .plant .. => true
  | _ => false

/-- The step with caching off. -/
def uncached : Step → Step
  | .preprocess source options => .preprocess source { options with useCache := false }
  | .transpile source file options => .transpile source file { options with useCache := false }
  | step => step

/-- The answer to the request of a step as it is worked out. -/
def answer? (backend : Backend) : Step → Option Answer
  | .preprocess source options => some (.text (targetText options.keepNames source))
  | .transpile source file options =>
    some (.output (Pipeline.direct backend source file options.keepNames))
  | _ => none

theorem request?_uncached (step : Step) : step.uncached.request? = step.request? := by
  cases step <;> rfl

theorem isForeign_uncached (step : Step) : step.uncached.isForeign = step.isForeign := by
  cases step <;> rfl

theorem answer?_uncached (step : Step) : step.uncached.answer? backend = step.answer? backend := by
  cases step <;> rfl

end Step

namespace Session

/-- A change of the directory that brings no new text files keeps the cache sound. -/
theorem sound_change {s : Session} (h : s.pipeline.Sound backend requests)
    {after : Option Directory}
    (hdisk : ∀ d ∈ after, ∀ name text, d.find? name = some (.file (.text text)) →
      s.pipeline.cache.directory.find? name = some (.file (.text text))) :
    (s.change after).state.pipeline.Sound backend requests ∧
    (s.change after).value.answer? = none := by
  cases after with
  | none => exact ⟨h, rfl⟩
  | some d =>
    refine ⟨⟨h.backend_eq, h.cache.mono (fun _ _ he => he) (hdisk d rfl) ?_⟩, rfl⟩
    exact fun _ hjob => hjob

/-- One step keeps the cache sound and answers its request as it is worked out. -/
theorem sound_step {s : Session} (h : s.pipeline.Sound backend requests)
    (hbackend : backend.IsStorable) (hseparated : Request.Separated requests) {step : Step}
    (hforeign : step.isForeign = false) (hrequest : ∀ r ∈ step.request?, r ∈ requests) :
    (s.step step).state.pipeline.Sound backend requests ∧
    (s.step step).value.answer? = step.answer? backend := by
  have hcache : ∀ {c : Cache}, c.Sound backend requests →
      (s.withCache c).pipeline.Sound backend requests := fun hc => ⟨h.backend_eq, hc⟩
  cases step with
  | preprocess source options =>
    obtain ⟨hstate, hvalue⟩ := h.preprocess hbackend hseparated (hrequest _ rfl) s.clock
    exact ⟨hstate, congrArg (some ∘ Answer.text) hvalue⟩
  | transpile source file options =>
    obtain ⟨hstate, hvalue⟩ := h.transpile hbackend hseparated (hrequest _ rfl) s.clock
    exact ⟨hstate, congrArg (some ∘ Answer.output) hvalue⟩
  | get source options => exact ⟨hcache (h.cache.get source options).1, rfl⟩
  | set => cases hforeign
  | invalidate maxAge => exact ⟨hcache (h.cache.invalidate s.clock maxAge), rfl⟩
  | clear => exact ⟨hcache h.cache.clear, rfl⟩
  | enable enabled =>
    exact ⟨hcache ⟨h.cache.memory, h.cache.disk, h.cache.pending⟩, rfl⟩
  | write => exact ⟨hcache h.cache.writeNext, rfl⟩
  | flush => exact ⟨hcache h.cache.flush, rfl⟩
  | stats => exact ⟨hcache (by rw [Cache.state_stats]; exact h.cache.flush), rfl⟩
  | calls => exact ⟨h, rfl⟩
  | reopen config =>
    refine ⟨hcache (h.cache.flush.mono ?_ (fun _ _ hs => hs) ?_), rfl⟩ <;> simp [Cache.new]
  | sleep milliseconds => exact ⟨h, rfl⟩
  | files => exact ⟨h, rfl⟩
  | entryFile name => exact ⟨h, rfl⟩
  | plant => cases hforeign
  | plantFolder name =>
    apply sound_change h
    intro d hd other text htext
    obtain ⟨d', hcreate, hfolder⟩ := Option.bind_eq_some_iff.1 hd
    rw [Directory.find?_createFolder? hfolder, Directory.find?_create? hcreate] at htext
    split at htext
    · cases htext
    · exact htext
  | remove name =>
    apply sound_change h
    intro d hd other text htext
    rw [Directory.find?_remove? hd] at htext
    split at htext
    · cases htext
    · exact htext

/-- A run answers every request as it is worked out. -/
theorem answers_exec {s : Session} (h : s.pipeline.Sound backend requests)
    (hbackend : backend.IsStorable) (hseparated : Request.Separated requests)
    {steps : List Step} (hforeign : ∀ step ∈ steps, step.isForeign = false)
    (hrequests : ∀ step ∈ steps, ∀ r ∈ step.request?, r ∈ requests) :
    (s.exec steps).2.map (·.reply.answer?) = steps.map (·.answer? backend) := by
  induction steps generalizing s with
  | nil => rfl
  | cons step steps ih =>
    rw [List.forall_mem_cons] at hforeign hrequests
    obtain ⟨hstate, hanswer⟩ := sound_step h hbackend hseparated hforeign.1 hrequests.1
    have htail := ih hstate hforeign.2 hrequests.2
    simp only [exec, List.map_cons]
    rw [hanswer, htail]

theorem answers_run {s : Session} (h : s.pipeline.Sound backend requests)
    (hbackend : backend.IsStorable) (hseparated : Request.Separated requests)
    {steps : List Step} (hforeign : ∀ step ∈ steps, step.isForeign = false)
    (hrequests : ∀ step ∈ steps, ∀ r ∈ step.request?, r ∈ requests) :
    (s.run steps).2.map (·.reply.answer?) = steps.map (·.answer? backend) := by
  induction steps generalizing s with
  | nil => rfl
  | cons step steps ih =>
    rw [List.forall_mem_cons] at hforeign hrequests
    obtain ⟨hstate, hanswer⟩ := sound_step h hbackend hseparated hforeign.1 hrequests.1
    have hflushed : ((s.step step).state.step .flush).state.pipeline.Sound backend requests :=
      (sound_step hstate hbackend hseparated rfl (by simp [Step.request?])).1
    have htail := ih hflushed hforeign.2 hrequests.2
    simp only [run, List.map_cons]
    rw [hanswer, htail]

end Session

/-- Caching changes no answer. From an empty cache, on a directory of any kind, a run
    gives the answers that it gives with caching off, if the backend's position maps
    can be stored and no two key texts of the run have one digest. Preprocessing
    answers with the target text, transpilation with what the backend makes of it. The
    steps of the background writer may stand anywhere in the run, and a caller who waits
    for the writes gets the same answers. -/
theorem Session.exec_transparent (backend : Backend) (config : CacheConfig)
    (directory : Directory) (clock : Nat) (steps : List Step) (hbackend : backend.IsStorable)
    (hempty : ∀ name, directory.find? name = none)
    (hforeign : ∀ step ∈ steps, step.isForeign = false)
    (hseparated : Request.Separated (steps.filterMap Step.request?)) :
    let session := Session.start backend config directory clock
    let answers := (session.exec steps).2.map (·.reply.answer?)
    answers = (session.exec (steps.map Step.uncached)).2.map (·.reply.answer?) ∧
    answers = (session.run steps).2.map (·.reply.answer?) ∧
    (∀ (i : Nat) (source : Text) (options : Options),
      steps[i]? = some (Step.preprocess source options) →
        answers[i]? = some (some (Answer.text (targetText options.keepNames source)))) ∧
    ∀ (i : Nat) (source file : Text) (options : Options),
      steps[i]? = some (Step.transpile source file options) →
        answers[i]? =
          some (some (Answer.output (Pipeline.direct backend source file options.keepNames))) := by
  intro session answers
  have hsound : session.pipeline.Sound backend (steps.filterMap Step.request?) :=
    ⟨rfl, Cache.sound_new config hempty⟩
  have hrequests : ∀ step ∈ steps, ∀ r ∈ step.request?, r ∈ steps.filterMap Step.request? :=
    fun step hstep r hr => List.mem_filterMap.2 ⟨step, hstep, hr⟩
  have hanswers : answers = steps.map (·.answer? backend) :=
    answers_exec hsound hbackend hseparated hforeign hrequests
  have huncached : (session.exec (steps.map Step.uncached)).2.map (·.reply.answer?) =
      steps.map (·.answer? backend) := by
    rw [answers_exec hsound hbackend hseparated (by simpa [Step.isForeign_uncached] using hforeign)
      (by simpa [Step.request?_uncached] using hrequests), List.map_map]
    exact List.map_congr_left fun step _ => step.answer?_uncached
  have hanswer : ∀ (i : Nat) (step : Step), steps[i]? = some step →
      answers[i]? = some (step.answer? backend) := by
    intro i step hi
    rw [hanswers, List.getElem?_map, hi, Option.map_some]
  have hwaiting := answers_run hsound hbackend hseparated hforeign hrequests
  exact ⟨hanswers.trans huncached.symm, hanswers.trans hwaiting.symm, fun i source options => hanswer i _,
    fun i source file options => hanswer i _⟩

/-- A backend whose position map is an object. -/
def mappingBackend : Backend :=
  .ofScript { map := some (.obj [("version", .nat 3)]) }

/-- A run that stores two answers, drops the memory tier, and asks for both again, and
    for another one before and after its write is done. -/
def reopenedRun : List Step :=
  [.preprocess "ক" {}, .transpile "ক" "ক.bjs" {}, .write, .reopen (some { memoryCapacity := 0 }),
    .transpile "ক" "ক.bjs" {}, .remove "x.json", .preprocess "ক" {}, .preprocess "খ" {},
    .preprocess "খ" {}, .write, .preprocess "খ" {}]

theorem Session.exec_transparent_reopenedRun :
    mappingBackend.IsStorable ∧ (∀ name, Directory.missing.find? name = none) ∧
    (∀ step ∈ reopenedRun, step.isForeign = false) ∧
    Request.Separated (reopenedRun.filterMap Step.request?) ∧
    ((Session.start mappingBackend {} .missing 0).exec reopenedRun).2.map (·.reply.answer?) =
      ((Session.start mappingBackend {} .missing 0).exec (reopenedRun.map Step.uncached)).2.map
        (·.reply.answer?) := by
  have hbackend : mappingBackend.IsStorable := by
    intro target file c hc m hm
    cases hc
    cases hm
    refine ⟨by simp, .obj ?_⟩
    simpa [Json.nat] using .int ⟨by decide, by decide⟩
  have hforeign : ∀ step ∈ reopenedRun, step.isForeign = false := by
    simp [reopenedRun, Step.isForeign]
  have hseparated : Request.Separated (reopenedRun.filterMap Step.request?) := by
    have hrequests : ∀ r ∈ reopenedRun.filterMap Step.request?,
        r ∈ [Request.preprocess "ক" false, .transpile "ক" "ক.bjs" false, .preprocess "খ" false] := by
      decide
    have hdigests : ([Request.preprocess "ক" false, .transpile "ক" "ক.bjs" false,
        .preprocess "খ" false].map fun r => ContentKey.hash r.keyText).Nodup := by
      decide +kernel
    intro r hr r' hr' heq
    rw [List.inj_on_of_nodup_map hdigests (hrequests r hr) (hrequests r' hr') heq]
  exact ⟨hbackend, fun _ => rfl, hforeign, hseparated,
    (Session.exec_transparent mappingBackend {} .missing 0 reopenedRun hbackend (fun _ => rfl)
      hforeign hseparated).1⟩

end BanglaSource
