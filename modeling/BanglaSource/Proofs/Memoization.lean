-- SUMMARY: The cache memoizes exactly: a request is served from it if and only if it was answered since the last clear and need not wait for its write.
import BanglaSource.Proofs.CacheCoherence
import BanglaSource.Proofs.DiskWrites
import BanglaSource.Proofs.SessionRuns
import BanglaSource.Proofs.Transparency
import Mathlib.Data.List.Induction
import Mathlib.Data.List.Nodup

/-!
# Exact memoization

On a working directory of its own, the cache knows the requests that were answered
with caching on, while it was enabled and since it was last cleared: no eviction,
no copy into memory, no reopening and no time out of use loses one of them, and no
other request takes the place of one. Which requests those are is read off the
steps of a run and their replies. A request that is known is served from the cache,
unless its answer has left memory and all writes of it are still pending. Only whether
an entry is found matters here, so a position map may be null, although it comes back
from the disk as none.
-/
namespace BanglaSource

/-! ## Position maps -/

/-- Whether the position maps of a backend are made of whole numbers and are nested
    so that an entry stays within the limit. -/
def Backend.HasStorableMaps (backend : Backend) : Prop :=
  ∀ target file c, backend target file = .ok c → ∀ m ∈ c.map, m.Storable

theorem Json.depth_setField_le {v field : Json} {n : Nat} (hv : v.depth ≤ n)
    (hfield : field.depth < n) (key : Text) : (Backend.setField key field v).depth ≤ n := by
  cases v with
  | obj fields =>
    cases n with
    | zero => exact absurd hfield (Nat.not_lt_zero _)
    | succ n =>
      have hfields := depthFields_le_iff.1 (Nat.le_of_succ_le_succ hv)
      refine Nat.succ_le_succ (depthFields_le_iff.2 fun f hf => ?_)
      rcases Assoc.mem_insert hf with rfl | hf
      · exact Nat.le_of_lt_succ hfield
      · exact hfields f hf
  | _ => exact hv

theorem Json.Storable.attachSource {m : Json} (h : m.Storable) (source : Text) :
    (Pipeline.attachSource source m).Storable := by
  have hsource : (Json.arr [.str source]).Whole Json.Numeral.Fits :=
    .arr (by simpa using .str source)
  have hdepth : (Json.arr [.str source]).depth < Tree.maxDepth - 1 := by
    simp [depth, depthItems, Tree.maxDepth]
  have hset : (Backend.setField "sourcesContent" (.arr [.str source]) m.canonical).Storable :=
    ⟨h.canonical.whole.setField hsource _, depth_setField_le h.canonical.depth_le hdepth _⟩
  exact hset.canonical

namespace Request

theorem storable_keyOptions (r : Request) : r.keyOptions.Storable where
  whole := r.whole_keyOptions _
  depth_le := by cases r <;> simp [keyOptions, Json.depth, Json.depthFields, Json.Tree.maxDepth]

theorem storable_answer {backend : Backend} (hbackend : backend.HasStorableMaps) {r : Request}
    {c : Compiled} (h : r.answer backend = .ok c) : ∀ m ∈ c.map, m.Storable := by
  intro m hm
  obtain ⟨target, file, c₀, m₀, hc₀, hm₀, rfl⟩ := exists_map_of_answer h hm
  exact (hbackend target file c₀ hc₀ m₀ hm₀).attachSource r.source

end Request

/-! ## Keys with an entry -/

namespace Cache

/-- Whether a lookup under a key finds an entry that was stored: it need not wait for a
    write, or the disk has an older entry. -/
def Serves (c : Cache) (key : Text) : Prop :=
  c.Settled key ∨ (Disk.read c.directory key).value?.isSome = true

/-- Whether a cache has an entry under exactly the given keys, once the pending writes
    are done. -/
def HasKeys (keys : Text → Prop) (c : Cache) : Prop :=
  ∃ stored : Text → Option Unit, c.Holds (fun _ => ()) stored ∧
    ∀ key, keys key ↔ (stored key).isSome = true

variable {keys : Text → Prop} {c : Cache}

theorem HasKeys.congr (h : c.HasKeys keys) {keys' : Text → Prop}
    (hkeys : ∀ key, keys key ↔ keys' key) : c.HasKeys keys' := by
  rwa [← funext fun key => propext (hkeys key)]

/-- What keeps every map keeps the keys. -/
theorem HasKeys.mono (h : c.HasKeys keys) {c' : Cache}
    (hholds : ∀ stored : Text → Option Unit, c.Holds (fun _ => ()) stored →
      c'.Holds (fun _ => ()) stored) : c'.HasKeys keys := by
  obtain ⟨stored, hstored, hkeys⟩ := h
  exact ⟨stored, hholds stored hstored, hkeys⟩

/-- An older entry is as good as the last one for memory to be coherent. -/
theorem HasKeys.state_get (h : c.HasKeys keys) (source : Text) (options : Json) :
    (c.get source options).state.HasKeys keys := by
  refine h.mono fun stored hstored => hstored.get fun _ e he => ?_
  have hsome := hstored.isSome_of_read (by rw [he]; rfl)
  exact Option.eq_some_of_isSome hsome

theorem HasKeys.value_get (h : c.HasKeys keys) (source : Text) (options : Json) :
    (c.get source options).value.isSome = true ↔
      c.enabled = true ∧ keys (ContentKey.of source options) ∧
        c.Serves (ContentKey.of source options) := by
  obtain ⟨stored, hstored, hkeys⟩ := h
  rw [hkeys]
  by_cases hsettled : c.enabled = true → c.Settled (ContentKey.of source options)
  · have hvalue := congrArg Option.isSome (hstored.get_of_settled hsettled).2
    rw [Option.isSome_map] at hvalue
    rw [hvalue]
    cases henabled : c.enabled with
    | false => simp
    | true => simp [Serves, hsettled henabled]
  · rw [Classical.not_imp] at hsettled
    obtain ⟨henabled, hsettled⟩ := hsettled
    rw [value_get_of_not_settled henabled hsettled]
    simp [Serves, henabled, hsettled, hstored.isSome_of_not_settled hsettled]

/-- A lookup that would have to wait is one under a key with an entry. -/
theorem HasKeys.of_not_settled (h : c.HasKeys keys) {key : Text} (hsettled : ¬ c.Settled key) :
    keys key := by
  obtain ⟨stored, hstored, hkeys⟩ := h
  exact (hkeys key).2 (hstored.isSome_of_not_settled hsettled)

theorem HasKeys.set (h : c.HasKeys keys) {now : Nat} {options : Json} {map : Option Json}
    (hnow : now < 2 ^ 64) (hoptions : options.Storable) (hmap : ∀ m ∈ map, m.Storable)
    (source output : Text) :
    (c.set now source options output map).state.HasKeys fun key =>
      keys key ∨ c.enabled = true ∧ key = ContentKey.of source options := by
  obtain ⟨stored, hstored, hkeys⟩ := h
  have hfree : ∀ v ∈ (Entry.new now options output map).freeValues, v.Storable := by
    simp only [Entry.freeValues, Entry.new, List.forall_mem_cons, Option.mem_toList]
    refine ⟨hoptions.canonical, fun v hv => ?_⟩
    obtain ⟨m, hm, rfl⟩ := Option.map_eq_some_iff.1 hv
    exact (hmap m hm).canonical
  refine ⟨_, hstored.set ⟨_, Entry.parse?_print_eq_onDisk hnow hfree, rfl⟩, fun key => ?_⟩
  cases henabled : c.enabled with
  | false => simp [hkeys]
  | true =>
    by_cases hkey : key = ContentKey.of source options
    · simp [hkey]
    · simp [hkey, hkeys]

theorem HasKeys.clear (h : c.HasKeys keys) : c.clear.state.HasKeys fun _ => False := by
  obtain ⟨stored, hstored, -⟩ := h
  exact ⟨_, hstored.clear, by simp⟩

end Cache

/-! ## Requests with an answer -/

namespace Pipeline

variable {backend : Backend} {requests : List Request} {known : Request → Prop} {p : Pipeline}

/-- A pipeline whose cache has the answers to exactly the known requests, which are
    some of those that are made at all. -/
structure Knows (backend : Backend) (requests : List Request) (known : Request → Prop)
    (p : Pipeline) : Prop where
  backend_eq : p.backend = backend
  mem_requests : ∀ r, known r → r ∈ requests
  cache : p.cache.HasKeys fun key => ∃ r, known r ∧ r.key = key

theorem Knows.congr (h : p.Knows backend requests known) {known' : Request → Prop}
    (hknown : ∀ r, known r ↔ known' r) : p.Knows backend requests known' := by
  rwa [← funext fun r => propext (hknown r)]

/-- No other request takes the place of one that is known. -/
theorem Knows.key_iff (h : p.Knows backend requests known) (hseparated : Request.Separated requests)
    {r : Request} (hr : r ∈ requests) : (∃ r', known r' ∧ r'.key = r.key) ↔ known r := by
  constructor
  · rintro ⟨r', hr', hkey⟩
    rwa [← Request.keyText_injective (hseparated r' (h.mem_requests r' hr') r hr hkey)]
  · exact fun hknown => ⟨r, hknown, rfl⟩

/-- A lookup finds the answer to a request that is known, unless it would have to wait. -/
theorem Knows.lookup (h : p.Knows backend requests known) (hseparated : Request.Separated requests)
    {r : Request} {useCache : Bool} (hr : useCache = true → r ∈ requests) :
    (p.lookup useCache r).state.Knows backend requests known ∧
    ((p.lookup useCache r).value.isSome = true ↔
      (useCache = true ∧ p.cache.enabled = true) ∧ known r ∧ p.cache.Serves r.key) := by
  cases useCache with
  | false => exact ⟨h, by simp [Pipeline.lookup]⟩
  | true =>
    have hstate := h.cache.state_get r.source r.keyOptions
    have hvalue := h.cache.value_get r.source r.keyOptions
    refine ⟨⟨h.backend_eq, h.mem_requests, hstate⟩, hvalue.trans ?_⟩
    rw [and_iff_right rfl]
    exact and_congr_right fun _ => and_congr_left fun _ => h.key_iff hseparated (hr rfl)

/-- The answer to a request that is stored makes the request known. -/
theorem Knows.store (h : p.Knows backend requests known) {r : Request} {useCache : Bool}
    (hr : useCache = true → r ∈ requests) {now : Nat} (hnow : now < 2 ^ 64) {map : Option Json}
    (hmap : ∀ m ∈ map, m.Storable) (output : Text) :
    (p.store now useCache r output map).state.Knows backend requests fun r' =>
      known r' ∨ (useCache = true ∧ p.cache.enabled = true) ∧ r' = r := by
  cases useCache with
  | false => exact h.congr (by simp)
  | true =>
    refine ⟨h.backend_eq, ?_, (h.cache.set hnow r.storable_keyOptions hmap r.source output).congr ?_⟩
    · rintro r' (hr' | ⟨-, rfl⟩)
      · exact h.mem_requests r' hr'
      · exact hr rfl
    · intro key
      constructor
      · rintro (⟨r', hr', hkey⟩ | ⟨henabled, rfl⟩)
        · exact ⟨r', .inl hr', hkey⟩
        · exact ⟨r, .inr ⟨⟨rfl, henabled⟩, rfl⟩, rfl⟩
      · rintro ⟨r', hr' | ⟨⟨-, henabled⟩, rfl⟩, hkey⟩
        · exact .inl ⟨r', hr', hkey⟩
        · exact .inr ⟨henabled, hkey.symm⟩

/-- Nothing is learned from an answer that was known. -/
theorem Knows.learn_known (h : p.Knows backend requests known) {r : Request} (hr : known r)
    (learns : Prop) : p.Knows backend requests fun r' => known r' ∨ learns ∧ r' = r :=
  h.congr fun r' => ⟨.inl, by rintro (hr' | ⟨-, rfl⟩) <;> assumption⟩

theorem Knows.preprocess (h : p.Knows backend requests known)
    (hseparated : Request.Separated requests) {source : Text} {options : Options}
    (hr : options.useCache = true → .preprocess source options.keepNames ∈ requests) {now : Nat}
    (hnow : now < 2 ^ 64) :
    ((p.preprocess now source options).state.Knows backend requests fun r =>
      known r ∨ (options.useCache = true ∧ p.cache.enabled = true) ∧
        r = .preprocess source options.keepNames) ∧
    ((p.preprocess now source options).value.fromCache = true ↔
      (options.useCache = true ∧ p.cache.enabled = true) ∧
        known (.preprocess source options.keepNames) ∧
        p.cache.Serves (Request.preprocess source options.keepNames).key) := by
  obtain ⟨hstate, hvalue⟩ := h.lookup hseparated hr
  cases hfound : (p.lookup options.useCache (.preprocess source options.keepNames)).value with
  | some e =>
    rw [hfound] at hvalue
    simp only [Pipeline.preprocess, hfound]
    exact ⟨hstate.learn_known (hvalue.1 rfl).2.1 _, iff_of_true trivial (hvalue.1 rfl)⟩
  | none =>
    rw [hfound] at hvalue
    have hmap : ∀ m ∈ (none : Option Json), m.Storable := by simp
    have hstored := hstate.store hr hnow hmap (targetText options.keepNames source)
    rw [enabled_lookup] at hstored
    simp only [Pipeline.preprocess, hfound]
    exact ⟨hstored, hvalue⟩

end Pipeline

/-- Whether a reply answers a request. A refusal of the backend does not. -/
def Reply.isAnswer : Reply → Bool
  | .preprocessed _ => true
  | .transpiled (.ok _) _ => true
  | _ => false

theorem Pipeline.Knows.transpile {backend : Backend} {requests : List Request}
    {known : Request → Prop} {p : Pipeline} (h : p.Knows backend requests known)
    (hbackend : backend.HasStorableMaps) (hseparated : Request.Separated requests)
    {source file : Text} {options : Options}
    (hr : options.useCache = true → .transpile source file options.keepNames ∈ requests)
    {now : Nat} (hnow : now < 2 ^ 64) (hblank : Text.isBlankText source = false)
    (target : SourceFile) :
    ((p.transpile now source file options).state.Knows backend requests fun r =>
      known r ∨ ((options.useCache = true ∧ p.cache.enabled = true) ∧
        (Reply.transpiled (p.transpile now source file options).value target).isAnswer = true) ∧
        r = .transpile source file options.keepNames) ∧
    ((Reply.transpiled (p.transpile now source file options).value target).isHit = true ↔
      (options.useCache = true ∧ p.cache.enabled = true) ∧
        known (.transpile source file options.keepNames) ∧
        p.cache.Serves (Request.transpile source file options.keepNames).key) := by
  obtain ⟨hstate, hvalue⟩ := h.lookup hseparated hr
  have henabled := p.enabled_lookup options.useCache (.transpile source file options.keepNames)
  simp only [Pipeline.transpile, hblank, Bool.false_eq_true, if_false]
  generalize p.lookup options.useCache (.transpile source file options.keepNames) = found
    at hstate hvalue henabled
  obtain ⟨rfl, hrequests, hcache⟩ := hstate
  have hcalled : Pipeline.Knows found.state.backend requests known
      { found.state with calls := found.state.calls + 1 } := ⟨rfl, hrequests, hcache⟩
  cases hfound : found.value with
  | some e =>
    rw [hfound] at hvalue
    exact ⟨Knows.learn_known ⟨rfl, hrequests, hcache⟩ (hvalue.1 rfl).2.1 _, hvalue⟩
  | none =>
    rw [hfound] at hvalue
    cases hcompile : compile found.state.backend source file options.keepNames with
    | error failure => exact ⟨hcalled.congr (by simp [Reply.isAnswer]), hvalue⟩
    | ok c =>
      have hmap := Request.storable_answer hbackend (r := .transpile source file options.keepNames)
        hcompile
      have hstored := hcalled.store hr hnow hmap c.code
      rw [henabled] at hstored
      exact ⟨hstored.congr (by simp [Reply.isAnswer]), hvalue⟩

/-! ## Histories -/

namespace Step

/-- The request that a step makes with caching on. A blank source is transpiled without
    the cache. -/
def cached? : Step → Option Request
  | .preprocess source options =>
    if options.useCache then some (.preprocess source options.keepNames) else none
  | .transpile source file options =>
    if options.useCache && !Text.isBlankText source then
      some (.transpile source file options.keepNames)
    else none
  | _ => none

theorem cached?_preprocess {source : Text} {options : Options} {r : Request} :
    (Step.preprocess source options).cached? = some r ↔
      options.useCache = true ∧ r = .preprocess source options.keepNames := by
  cases huse : options.useCache <;> simp [cached?, huse, eq_comm]

theorem cached?_transpile {source file : Text} {options : Options} {r : Request}
    (hblank : Text.isBlankText source = false) :
    (Step.transpile source file options).cached? = some r ↔
      options.useCache = true ∧ r = .transpile source file options.keepNames := by
  cases huse : options.useCache <;> simp [cached?, hblank, huse, eq_comm]

/-- Whether a step leaves it to the pipeline and to clearing to change the files of
    the cache. -/
def sparesFiles : Step → Bool
  | .set .. | .invalidate _ | .plant .. | .plantFolder _ | .remove _ => false
  | _ => true

end Step

namespace Session

/-- Whether a step makes the request `r` with caching on, in a state in which the cache
    is enabled. -/
def Asks (s : Session) (step : Step) (r : Request) : Prop :=
  s.pipeline.cache.enabled = true ∧ step.cached? = some r

/-- Whether the request `r` was answered in a run with caching on and while the cache
    was enabled, and the cache was not cleared since. -/
def Answered (s : Session) (steps : List Step) (r : Request) : Prop :=
  ∃ past call since, steps = past ++ call :: since ∧ (s.after past).Asks call r ∧
    ((s.after past).step call).value.isAnswer = true ∧ Step.clear ∉ since

/-- The known requests after a step, if those before it are `known`. -/
def learned (s : Session) (known : Request → Prop) (step : Step) (r : Request) : Prop :=
  step ≠ .clear ∧ known r ∨ s.Asks step r ∧ (s.step step).value.isAnswer = true

theorem not_answered_nil (s : Session) (r : Request) : ¬ s.Answered [] r := by
  simp [Answered]

/-- The last step of a history decides what is added to it and whether the rest still
    counts. -/
theorem answered_concat (s : Session) (steps : List Step) (step : Step) (r : Request) :
    s.Answered (steps ++ [step]) r ↔ (s.after steps).learned (s.Answered steps) step r := by
  constructor
  · rintro ⟨past, call, since, heq, hasks, hanswer, hclear⟩
    rcases since.eq_nil_or_concat with rfl | ⟨since, last, rfl⟩
    · obtain ⟨rfl, hcall⟩ := List.append_inj' heq rfl
      cases hcall
      exact .inr ⟨hasks, hanswer⟩
    · rw [List.concat_eq_append] at heq hclear
      rw [← List.cons_append, ← List.append_assoc] at heq
      obtain ⟨rfl, hlast⟩ := List.append_inj' heq rfl
      cases hlast
      rw [List.mem_append, not_or, List.mem_singleton] at hclear
      exact .inl ⟨Ne.symm hclear.2, past, call, since, rfl, hasks, hanswer, hclear.1⟩
  · rintro (⟨hstep, past, call, since, rfl, hasks, hanswer, hclear⟩ | ⟨hasks, hanswer⟩)
    · refine ⟨past, call, since ++ [step], by simp, hasks, hanswer, ?_⟩
      rw [List.mem_append, not_or, List.mem_singleton]
      exact ⟨hclear, Ne.symm hstep⟩
    · exact ⟨steps, step, [], rfl, hasks, hanswer, List.not_mem_nil⟩

variable {backend : Backend} {requests : List Request} {known : Request → Prop} {s : Session}

/-- One step: the cache answers the requests that are known, and knows afterwards what
    the step adds to them. -/
theorem knows_step (h : s.pipeline.Knows backend requests known)
    (hbackend : backend.HasStorableMaps) (hseparated : Request.Separated requests) {step : Step}
    (hspares : step.sparesFiles = true) (hrequest : ∀ r ∈ step.cached?, r ∈ requests)
    (hclock : s.clock < 2 ^ 64) :
    (s.step step).state.pipeline.Knows backend requests (s.learned known step) ∧
    ∀ r, s.Asks step r →
      ((s.step step).value.isHit = true ↔ known r ∧ s.pipeline.cache.Serves r.key) := by
  have hidle : ∀ {step : Step}, step ≠ .clear → step.cached? = none →
      (s.step step).state.pipeline.Knows backend requests known →
      (s.step step).state.pipeline.Knows backend requests (s.learned known step) ∧
      ∀ r, s.Asks step r →
        ((s.step step).value.isHit = true ↔ known r ∧ s.pipeline.cache.Serves r.key) := by
    intro step hclear hcached hstate
    exact ⟨hstate.congr (by simp [learned, Asks, hclear, hcached]), by simp [Asks, hcached]⟩
  cases step with
  | preprocess source options =>
    have hr (huse : options.useCache = true) : .preprocess source options.keepNames ∈ requests :=
      hrequest _ (Step.cached?_preprocess.2 ⟨huse, rfl⟩)
    obtain ⟨hstate, hvalue⟩ := h.preprocess hseparated hr hclock
    constructor
    · refine hstate.congr fun r => ?_
      simp [learned, Asks, Step.cached?_preprocess, Session.step, Reply.isAnswer, and_assoc,
        and_left_comm]
    · rintro r ⟨henabled, hcached⟩
      obtain ⟨huse, rfl⟩ := Step.cached?_preprocess.1 hcached
      exact hvalue.trans (and_iff_right ⟨huse, henabled⟩)
  | transpile source file options =>
    cases hblank : Text.isBlankText source with
    | true =>
      apply hidle (by simp) (by simp [Step.cached?, hblank])
      simpa [Session.step, Pipeline.transpile, hblank] using h
    | false =>
      have hr (huse : options.useCache = true) :
          .transpile source file options.keepNames ∈ requests :=
        hrequest _ ((Step.cached?_transpile hblank).2 ⟨huse, rfl⟩)
      obtain ⟨hstate, hvalue⟩ := h.transpile hbackend hseparated hr hclock hblank
        ⟨file, targetText options.keepNames source⟩
      constructor
      · refine hstate.congr fun r => ?_
        simp [learned, Asks, Step.cached?_transpile hblank, Session.step, and_assoc, and_left_comm,
          and_comm]
      · rintro r ⟨henabled, hcached⟩
        obtain ⟨huse, rfl⟩ := (Step.cached?_transpile hblank).1 hcached
        exact hvalue.trans (and_iff_right ⟨huse, henabled⟩)
  | get source options =>
    exact hidle (by simp) rfl
      ⟨h.backend_eq, h.mem_requests, h.cache.state_get source options⟩
  | clear =>
    have hcleared : (s.step .clear).state.pipeline.Knows backend requests fun _ => False :=
      ⟨h.backend_eq, by simp, h.cache.clear.congr (by simp)⟩
    exact ⟨hcleared.congr (by simp [learned, Asks, Step.cached?]), by simp [Asks, Step.cached?]⟩
  | enable enabled =>
    exact hidle (by simp) rfl ⟨h.backend_eq, h.mem_requests, h.cache.mono fun _ hstored =>
      ⟨hstored.memory, hstored.disk, hstored.survives⟩⟩
  | write =>
    exact hidle (by simp) rfl ⟨h.backend_eq, h.mem_requests, h.cache.mono fun _ hstored =>
      hstored.writeNext⟩
  | flush =>
    exact hidle (by simp) rfl ⟨h.backend_eq, h.mem_requests, h.cache.mono fun _ hstored =>
      hstored.flush⟩
  | stats =>
    refine hidle (by simp) rfl ⟨h.backend_eq, h.mem_requests, h.cache.mono fun _ hstored => ?_⟩
    simpa only [Session.step, withCache, Cache.state_stats] using hstored.flush
  | reopen config =>
    exact hidle (by simp) rfl ⟨h.backend_eq, h.mem_requests, h.cache.mono fun _ hstored =>
      hstored.reopen _⟩
  | calls | sleep | files | entryFile => exact hidle (by simp) rfl h
  | set | invalidate | plant | plantFolder | remove => cases hspares

/-- A run: the cache knows the requests that were answered and are not cleared. -/
theorem knows_after (h : s.pipeline.Knows backend requests fun _ => False)
    (hbackend : backend.HasStorableMaps) (hseparated : Request.Separated requests)
    {steps : List Step} (hspares : ∀ step ∈ steps, step.sparesFiles = true)
    (hrequests : ∀ step ∈ steps, ∀ r ∈ step.cached?, r ∈ requests)
    (hclock : s.clock + (steps.map Step.pause).sum < 2 ^ 64) :
    (s.after steps).pipeline.Knows backend requests (s.Answered steps) := by
  induction steps using List.reverseRecOn with
  | nil => exact h.congr fun r => iff_of_false id (s.not_answered_nil r)
  | append_singleton steps step ih =>
    rw [List.forall_mem_append, List.forall_mem_singleton] at hspares hrequests
    rw [List.map_append, List.sum_append] at hclock
    have hbefore := ih hspares.1 hrequests.1 (by omega)
    have hlater : (s.after steps).clock < 2 ^ 64 := by
      rw [clock_after]
      omega
    rw [after_concat]
    exact (knows_step hbefore hbackend hseparated hspares.2 hrequests.2 hlater).1.congr fun r =>
      (s.answered_concat steps step r).symm

/-- A request is answered from the cache if it was answered before and the cache serves
    it. One that would have to wait was answered before. -/
theorem isHit_iff (h : s.pipeline.Knows backend requests fun _ => False)
    (hbackend : backend.HasStorableMaps) (hseparated : Request.Separated requests)
    {before : List Step} {step : Step} {r : Request}
    (hspares : ∀ x ∈ before ++ [step], x.sparesFiles = true)
    (hrequests : ∀ x ∈ before ++ [step], ∀ r ∈ x.cached?, r ∈ requests)
    (hclock : s.clock + (before.map Step.pause).sum < 2 ^ 64)
    (hasks : (s.after before).Asks step r) :
    (((s.after before).step step).value.isHit = true ↔
      s.Answered before r ∧ (s.after before).pipeline.cache.Serves r.key) ∧
    (¬ (s.after before).pipeline.cache.Settled r.key → s.Answered before r) := by
  rw [List.forall_mem_append, List.forall_mem_singleton] at hspares hrequests
  have hknows := knows_after h hbackend hseparated hspares.1 hrequests.1 hclock
  rw [← clock_after] at hclock
  refine ⟨(knows_step hknows hbackend hseparated hspares.2 hrequests.2 hclock).2 r hasks,
    fun hsettled => ?_⟩
  exact (hknows.key_iff hseparated (hrequests.2 r hasks.2)).1
    (hknows.cache.of_not_settled hsettled)

theorem knows_start (backend : Backend) (config : CacheConfig) (clock : Nat)
    (requests : List Request) {directory : Directory}
    (h : Disk.Keeps (fun _ => ()) (fun _ => none) directory) :
    (start backend config directory clock).pipeline.Knows backend requests fun _ => False where
  backend_eq := rfl
  mem_requests := by simp
  cache := ⟨fun _ => none, Cache.holds_new config h, by simp⟩

/-- On a fresh working directory that the run has for itself, a request that is made
    with caching on, while the cache is enabled, is answered from the cache if and only
    if it was answered before in the same way, and the cache was not cleared since. This
    is so if the answer is in memory or no write of it is pending. Otherwise it was
    answered before, and is answered from the cache only if an earlier write of it is
    done. The steps of the background writer may stand anywhere in the run. The backend
    is called for all other transpilations of a source that is not blank, once for
    each. For a caller who waits for the writes after each step there is no condition. -/
theorem exec_memoizes (backend : Backend) (config : CacheConfig) (directory : Directory)
    (clock : Nat) (steps : List Step) (hbackend : backend.HasStorableMaps)
    (hworking : directory.IsWorking)
    (hfresh : ∀ key, directory.find? (Disk.entryName key) = none ∧
      directory.find? (Disk.temporaryName key) = none)
    (hspares : ∀ step ∈ steps, step.sparesFiles = true)
    (hseparated : Request.Separated (steps.filterMap Step.cached?))
    (hclock : clock + (steps.map Step.pause).sum < 2 ^ 64) :
    let session := start backend config directory clock
    ((∀ before step later r, steps = before ++ step :: later →
      (session.after before).Asks step r →
        let cache := (session.after before).pipeline.cache
        let isHit := (session.exec steps).2[before.length]?.any (·.reply.isHit)
        (cache.Settled r.key → (isHit = true ↔ session.Answered before r)) ∧
        (¬ cache.Settled r.key → session.Answered before r ∧
          (isHit = true ↔ (Disk.read cache.directory r.key).value?.isSome = true))) ∧
    (session.after steps).pipeline.calls =
      (steps.zip (session.exec steps).2).countP fun call =>
        call.1.needsBackend && !call.2.reply.isHit) ∧
    (∀ before step later r, steps = before ++ step :: later →
      (session.after (Step.waiting before)).Asks step r →
        ((session.run steps).2[before.length]?.any (·.reply.isHit) = true ↔
          session.Answered (Step.waiting before) r)) ∧
    (session.run steps).1.pipeline.calls =
      (steps.zip (session.run steps).2).countP fun call =>
        call.1.needsBackend && !call.2.reply.isHit := by
  intro session
  have hstart : session.pipeline.Knows backend (steps.filterMap Step.cached?) fun _ => False :=
    knows_start backend config clock _ (Disk.keeps_of_fresh _ hworking hfresh)
  have hrequests : ∀ step ∈ steps, ∀ r ∈ step.cached?, r ∈ steps.filterMap Step.cached? :=
    fun step hstep r hr => List.mem_filterMap.2 ⟨step, hstep, hr⟩
  have hpause : ∀ before step later, steps = before ++ step :: later →
      clock + (before.map Step.pause).sum < 2 ^ 64 := by
    intro before step later hsteps
    rw [hsteps, List.map_append, List.sum_append] at hclock
    omega
  refine ⟨⟨fun before step later r hsteps hasks => ?_,
    (session.calls_after steps).trans (Nat.zero_add _)⟩,
    fun before step later r hsteps hasks => ?_, (session.calls_run steps).trans (Nat.zero_add _)⟩
  · have hmem : ∀ x ∈ before ++ [step], x ∈ steps := by
      simp only [hsteps, List.mem_append, List.mem_cons]
      grind
    obtain ⟨hhit, hanswered⟩ := isHit_iff hstart hbackend hseparated
      (fun x hx => hspares x (hmem x hx)) (fun x hx => hrequests x (hmem x hx))
      (hpause before step later hsteps) hasks
    rw [Cache.Serves] at hhit
    rw [hsteps, getElem?_records, Option.any_some]
    refine ⟨fun hsettled => hhit.trans (and_iff_left (.inl hsettled)), fun hsettled => ?_⟩
    exact ⟨hanswered hsettled,
      hhit.trans ((and_iff_right (hanswered hsettled)).trans (or_iff_right hsettled))⟩
  · -- A wait makes no request, so what is asked of the steps holds with the waits too.
    have hmem : ∀ x ∈ Step.waiting before ++ [step], x ∈ steps ∨ x = .flush := by
      rw [List.forall_mem_append, List.forall_mem_singleton, hsteps]
      refine ⟨fun x hx => (Step.mem_waiting hx).imp_left (List.mem_append_left _), .inl (by simp)⟩
    have hpending := pending_after_waiting (s := session) rfl before
    have hhit := (isHit_iff hstart hbackend hseparated
      (fun x hx => (hmem x hx).elim (hspares x) (by rintro rfl; rfl))
      (fun x hx => (hmem x hx).elim (hrequests x) (by rintro rfl; simp [Step.cached?]))
      (by rw [Step.sum_pause_waiting]; exact hpause before step later hsteps) hasks).1
    rw [hsteps, getElem?_records_run, Option.any_some]
    exact hhit.trans (and_iff_left (.inl (Cache.settled_of_pending_eq_nil hpending _)))

/-- A backend that refuses one file and gives null for a position map. -/
def nullMapBackend : Backend := fun target file =>
  if file = "ভুল.bjs".toList then .error ⟨"refused", none⟩ else .ok ⟨target, some .null⟩

/-- A run that asks for one answer before, during and after a time out of use, without
    memory and after clearing, and twice for another that is refused. -/
def interruptedRun : List Step :=
  [.transpile "ক" "ক.bjs" {}, .transpile "ক" "ভুল.bjs" {},
    .reopen (some { memoryCapacity := 0, enabled := false }), .transpile "ক" "ক.bjs" {},
    .enable true, .preprocess "ক" {}, .flush, .transpile "ক" "ক.bjs" {},
    .transpile "ক" "ভুল.bjs" {}, .clear, .transpile "ক" "ক.bjs" {}]

/-- A run that asks for an answer when its write is done and another one is pending. -/
def hurriedRequests : List Step :=
  [.preprocess "ক" {}, .transpile "ক" "ক.bjs" {}, .write, .preprocess "ক" {}]

/-- The three requests of the runs above have different keys. -/
theorem separated_of_threeRequests {requests : List Request}
    (h : ∀ r ∈ requests, r ∈ [Request.preprocess "ক" false, .transpile "ক" "ক.bjs" false,
      .transpile "ক" "ভুল.bjs" false]) : Request.Separated requests := by
  have hdigests : ([Request.preprocess "ক" false, .transpile "ক" "ক.bjs" false,
      .transpile "ক" "ভুল.bjs" false].map fun r => ContentKey.hash r.keyText).Nodup := by
    decide +kernel
  intro r hr r' hr' heq
  rw [List.inj_on_of_nodup_map hdigests (h r hr) (h r' hr') heq]

theorem hasStorableMaps_nullMapBackend : nullMapBackend.HasStorableMaps := by
  intro target file c hc m hm
  simp only [nullMapBackend] at hc
  split at hc <;> cases hc
  cases hm
  exact ⟨.null, Nat.zero_le _⟩

theorem exec_memoizes_interruptedRun :
    nullMapBackend.HasStorableMaps ∧
    (∀ step ∈ interruptedRun ++ hurriedRequests, step.sparesFiles = true) ∧
    Request.Separated (interruptedRun.filterMap Step.cached?) ∧
    Request.Separated (hurriedRequests.filterMap Step.cached?) ∧
    let session := start nullMapBackend {} .missing 7
    (session.exec interruptedRun).2[7]?.any (·.reply.isHit) = true ∧
    (session.exec interruptedRun).2[10]?.any (·.reply.isHit) ≠ true ∧
    ((session.after interruptedRun).pipeline.calls =
      (interruptedRun.zip (session.exec interruptedRun).2).countP fun call =>
        call.1.needsBackend && !call.2.reply.isHit) ∧
    let memoryless := start nullMapBackend { memoryCapacity := 0 } .missing 7
    (memoryless.exec hurriedRequests).2[3]?.any (·.reply.isHit) = true ∧
    (memoryless.run hurriedRequests).2[3]?.any (·.reply.isHit) = true := by
  have hspares : ∀ step ∈ interruptedRun ++ hurriedRequests, step.sparesFiles = true := by
    simp [interruptedRun, hurriedRequests, Step.sparesFiles]
  have hseparated : Request.Separated (interruptedRun.filterMap Step.cached?) :=
    separated_of_threeRequests (by decide)
  have hseparated' : Request.Separated (hurriedRequests.filterMap Step.cached?) :=
    separated_of_threeRequests (by decide)
  obtain ⟨⟨hhits, hcalls⟩, -⟩ := exec_memoizes nullMapBackend {} .missing 7 interruptedRun
    hasStorableMaps_nullMapBackend rfl (fun _ => ⟨rfl, rfl⟩)
    (fun step hstep => hspares step (List.mem_append_left _ hstep)) hseparated (by decide)
  obtain ⟨⟨hhits', -⟩, hwaits, -⟩ := exec_memoizes nullMapBackend { memoryCapacity := 0 } .missing 7
    hurriedRequests hasStorableMaps_nullMapBackend rfl (fun _ => ⟨rfl, rfl⟩)
    (fun step hstep => hspares step (List.mem_append_right _ hstep)) hseparated' (by decide)
  have hasks : ∀ n, n = 7 ∨ n = 10 →
      ((start nullMapBackend {} .missing 7).after (interruptedRun.take n)).Asks
        (.transpile "ক" "ক.bjs" {}) (.transpile "ক" "ক.bjs" false) := by
    rintro n (rfl | rfl) <;> exact ⟨enabled_after .., rfl⟩
  refine ⟨hasStorableMaps_nullMapBackend, hspares, hseparated, hseparated', ?_, ?_, hcalls, ?_, ?_⟩
  · have hflush : interruptedRun.take 7 = interruptedRun.take 6 ++ [.flush] := rfl
    have hpending : ((start nullMapBackend {} .missing 7).after
        (interruptedRun.take 7)).pipeline.cache.pending = [] := by
      rw [hflush, after_concat]
      rfl
    refine ((hhits (interruptedRun.take 7) _ _ _ rfl (hasks 7 (.inl rfl))).1
      (Cache.settled_of_pending_eq_nil hpending _)).2 ?_
    exact ⟨[], _, (interruptedRun.take 7).drop 1, rfl, ⟨rfl, rfl⟩, by decide +kernel,
      by simp [interruptedRun]⟩
  · have hclear : interruptedRun.take 10 = interruptedRun.take 9 ++ [.clear] := rfl
    have hpending : ((start nullMapBackend {} .missing 7).after
        (interruptedRun.take 10)).pipeline.cache.pending = [] := by
      rw [hclear, after_concat]
      simp only [Session.step, withCache, Cache.state_clear]
    refine ((hhits (interruptedRun.take 10) _ _ _ rfl (hasks 10 (.inr rfl))).1
      (Cache.settled_of_pending_eq_nil hpending _)).not.2 ?_
    rw [hclear, answered_concat]
    simp [learned, Asks, Step.cached?]
  · refine ((hhits' (hurriedRequests.take 3) _ _ (.preprocess "ক" false) rfl
      ⟨enabled_after .., rfl⟩).1 (.inr (by decide +kernel))).2 ?_
    exact ⟨[], _, (hurriedRequests.take 3).drop 1, rfl, ⟨rfl, rfl⟩, rfl, by simp [hurriedRequests]⟩
  · refine (hwaits (hurriedRequests.take 3) _ _ (.preprocess "ক" false) rfl
      ⟨enabled_after .., rfl⟩).2 ?_
    exact ⟨[], _, (Step.waiting (hurriedRequests.take 3)).drop 1, rfl, ⟨rfl, rfl⟩, rfl,
      by simp [hurriedRequests, Step.waiting]⟩

/-- Not every request that was answered is then served from the cache. Without memory, one
    that is made again at once is not. -/
theorem exec_repeatedRequest :
    let session := start nullMapBackend { memoryCapacity := 0 } .missing 7
    let steps := [Step.preprocess "ক" {}, .preprocess "ক" {}]
    nullMapBackend.HasStorableMaps ∧ (∀ step ∈ steps, step.sparesFiles = true) ∧
    Request.Separated (steps.filterMap Step.cached?) ∧
    (session.after (steps.take 1)).Asks (.preprocess "ক" {}) (.preprocess "ক" false) ∧
    session.Answered (steps.take 1) (.preprocess "ক" false) ∧
    (session.exec steps).2[1]?.any (·.reply.isHit) = false := by
  refine ⟨hasStorableMaps_nullMapBackend, by simp [Step.sparesFiles],
    separated_of_threeRequests (by decide), ⟨enabled_after .., rfl⟩, ?_, by decide +kernel⟩
  exact ⟨[], _, [], rfl, ⟨rfl, rfl⟩, rfl, List.not_mem_nil⟩

end Session
end BanglaSource
