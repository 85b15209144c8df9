-- SUMMARY: Runs of a session step by step: the state before each step, its record, clock and switch, and the calls of the backend.
import BanglaSource.Proofs.CacheCoherence
import BanglaSource.Proofs.Invalidation
import BanglaSource.Session
import Mathlib.Algebra.Ring.Nat

/-!
# Runs

A run is taken apart at any of its steps: what is recorded for a step depends on
the state that the steps before it leave, and on nothing else. The clock of that
state is the sum of the pauses so far, and its cache is enabled as the last step
says that switched it or opened it. The backend is called once for every
transpilation that the cache leaves to it. A caller who waits for pending writes makes
the same run with a wait behind each step, so no write is pending before the next one.
-/
namespace BanglaSource

/-- What the reply to a lookup holds. -/
def Reply.found? : Reply → Option (Option Entry)
  | .entry found => some found
  | _ => none

/-- How much time a step takes. -/
def Step.pause : Step → Nat
  | .sleep milliseconds => milliseconds
  | _ => 0

/-! ## States and records -/

namespace Session

/-- The state after steps. -/
def after (s : Session) (steps : List Step) : Session :=
  (s.exec steps).1

theorem after_cons (s : Session) (step : Step) (steps : List Step) :
    s.after (step :: steps) = (s.step step).state.after steps :=
  rfl

theorem after_append (s : Session) (before steps : List Step) :
    s.after (before ++ steps) = (s.after before).after steps := by
  induction before generalizing s with
  | nil => rfl
  | cons step before ih => rw [List.cons_append, after_cons, after_cons, ih]

theorem after_concat (s : Session) (before : List Step) (step : Step) :
    s.after (before ++ [step]) = ((s.after before).step step).state :=
  s.after_append before [step]

theorem records_cons (s : Session) (step : Step) (steps : List Step) :
    (s.exec (step :: steps)).2 =
      ⟨(s.step step).value, (s.step step).events⟩ :: ((s.step step).state.exec steps).2 :=
  rfl

/-- What is recorded for a step is decided in the state that the steps before it
    leave. -/
theorem getElem?_records (s : Session) (before : List Step) (step : Step) (later : List Step) :
    (s.exec (before ++ step :: later)).2[before.length]? =
      some ⟨((s.after before).step step).value, ((s.after before).step step).events⟩ := by
  induction before generalizing s with
  | nil => rfl
  | cons first before ih =>
    rw [List.cons_append, records_cons, List.length_cons, List.getElem?_cons_succ, after_cons]
    exact ih _

/-! ## Waiting for writes -/

end Session

/-- The steps with a wait behind each of them. -/
def Step.waiting (steps : List Step) : List Step :=
  steps.flatMap fun step => [step, .flush]

theorem Step.mem_waiting {steps : List Step} {step : Step} (h : step ∈ waiting steps) :
    step ∈ steps ∨ step = .flush := by
  obtain ⟨first, hfirst, hstep⟩ := List.mem_flatMap.1 h
  rcases List.mem_pair.1 hstep with rfl | rfl
  · exact .inl hfirst
  · exact .inr rfl

theorem Step.sum_pause_waiting (steps : List Step) :
    ((waiting steps).map pause).sum = (steps.map pause).sum := by
  induction steps with
  | nil => rfl
  | cons step steps ih =>
    have hcons : waiting (step :: steps) = step :: .flush :: waiting steps := rfl
    simp only [hcons, List.map_cons, List.sum_cons, ih]
    exact congrArg (step.pause + ·) (Nat.zero_add _)

namespace Session

/-- A caller who waits makes the same steps and the waits between them, of which nothing
    is recorded. -/
theorem getElem?_records_run (s : Session) (before : List Step) (step : Step)
    (later : List Step) :
    (s.run (before ++ step :: later)).2[before.length]? =
      some ⟨((s.after (Step.waiting before)).step step).value,
        ((s.after (Step.waiting before)).step step).events⟩ := by
  induction before generalizing s with
  | nil => rfl
  | cons first before ih => exact ih _

theorem pending_after_waiting {s : Session} (h : s.pipeline.cache.pending = [])
    (steps : List Step) : (s.after (Step.waiting steps)).pipeline.cache.pending = [] := by
  induction steps generalizing s with
  | nil => exact h
  | cons step steps ih => exact ih rfl

/-! ## Time -/

theorem clock_change (s : Session) (directory : Option Directory) :
    (s.change directory).state.clock = s.clock := by
  cases directory <;> rfl

theorem clock_step (s : Session) (step : Step) :
    (s.step step).state.clock = s.clock + step.pause := by
  cases step with
  | plant | plantFolder | remove => exact s.clock_change _
  | _ => rfl

theorem clock_after (s : Session) (steps : List Step) :
    (s.after steps).clock = s.clock + (steps.map Step.pause).sum := by
  induction steps generalizing s with
  | nil => rfl
  | cons step steps ih =>
    rw [after_cons, ih, clock_step, List.map_cons, List.sum_cons, Nat.add_assoc]

/-! ## The switch -/

theorem config_step (s : Session) (step : Step) : (s.step step).state.config = s.config := by
  cases step with
  | plant | plantFolder | remove => simp only [step, change]; split <;> rfl
  | _ => rfl

end Session

/-- Whether the cache is enabled after a step, in a session with the given
    configuration. -/
def Step.enabledAfter (config : CacheConfig) (enabled : Bool) : Step → Bool
  | .enable value => value
  | .reopen other => (other.getD config).enabled
  | _ => enabled

namespace Pipeline

theorem enabled_lookup (p : Pipeline) (useCache : Bool) (r : Request) :
    (p.lookup useCache r).state.cache.enabled = p.cache.enabled := by
  cases useCache with
  | false => rfl
  | true => exact p.cache.enabled_get ..

theorem enabled_store (p : Pipeline) (now : Nat) (useCache : Bool) (r : Request) (output : Text)
    (map : Option Json) :
    (p.store now useCache r output map).state.cache.enabled = p.cache.enabled := by
  cases useCache with
  | false => rfl
  | true => exact p.cache.enabled_set ..

end Pipeline

namespace Session

theorem enabled_step (s : Session) (step : Step) :
    (s.step step).state.pipeline.cache.enabled =
      step.enabledAfter s.config s.pipeline.cache.enabled := by
  cases step with
  | preprocess source options =>
    simp only [Session.step, Pipeline.preprocess]
    split
    · exact s.pipeline.enabled_lookup ..
    · exact (Pipeline.enabled_store ..).trans (s.pipeline.enabled_lookup ..)
  | transpile source file options =>
    simp only [Session.step, Pipeline.transpile]
    split
    · rfl
    · split
      · exact s.pipeline.enabled_lookup ..
      · split
        · exact s.pipeline.enabled_lookup ..
        · exact (Pipeline.enabled_store ..).trans (s.pipeline.enabled_lookup ..)
  | get => exact s.pipeline.cache.enabled_get ..
  | set => exact s.pipeline.cache.enabled_set ..
  | invalidate maxAge =>
    exact (congrArg Cache.enabled (s.pipeline.cache.state_invalidate s.clock maxAge).1).trans rfl
  | write => exact s.pipeline.cache.enabled_writeNext
  | clear => exact s.pipeline.cache.enabled_clear
  | stats => exact (congrArg Cache.enabled s.pipeline.cache.state_stats).trans rfl
  | plant | plantFolder | remove => simp only [Session.step, change]; split <;> rfl
  | _ => rfl

/-- The cache is switched on and off by the steps that say so, and by nothing else. -/
theorem enabled_after (s : Session) (steps : List Step) :
    (s.after steps).pipeline.cache.enabled =
      steps.foldl (Step.enabledAfter s.config) s.pipeline.cache.enabled := by
  induction steps generalizing s with
  | nil => rfl
  | cons step steps ih => rw [after_cons, ih, config_step, enabled_step, List.foldl_cons]

end Session

/-! ## Calls of the backend -/

/-- Whether a reply is an answer from the cache. -/
def Reply.isHit : Reply → Bool
  | .preprocessed answer => answer.fromCache
  | .transpiled (.ok answer) _ => answer.fromCache
  | _ => false

/-- Whether a step calls the backend, unless the cache has the answer. -/
def Step.needsBackend : Step → Bool
  | .transpile source _ _ => !Text.isBlankText source
  | _ => false

namespace Pipeline

theorem calls_lookup (p : Pipeline) (useCache : Bool) (r : Request) :
    (p.lookup useCache r).state.calls = p.calls := by
  cases useCache <;> rfl

theorem calls_store (p : Pipeline) (now : Nat) (useCache : Bool) (r : Request) (output : Text)
    (map : Option Json) : (p.store now useCache r output map).state.calls = p.calls := by
  cases useCache <;> rfl

theorem calls_preprocess (p : Pipeline) (now : Nat) (source : Text) (options : Options) :
    (p.preprocess now source options).state.calls = p.calls := by
  unfold preprocess
  dsimp only
  split
  · exact p.calls_lookup ..
  · exact (calls_store ..).trans (p.calls_lookup ..)

/-- A transpilation calls the backend once, unless its source is blank or the cache
    has the answer. It does so if the backend then refuses the text as well. -/
theorem calls_transpile (p : Pipeline) (now : Nat) (source file : Text) (options : Options)
    (target : SourceFile) :
    (p.transpile now source file options).state.calls =
      p.calls + if !Text.isBlankText source &&
        !(Reply.transpiled (p.transpile now source file options).value target).isHit
        then 1 else 0 := by
  have hlookup := p.calls_lookup options.useCache (.transpile source file options.keepNames)
  cases hblank : Text.isBlankText source with
  | true => simp [transpile, hblank]
  | false =>
    simp only [transpile, hblank, Bool.false_eq_true, if_false]
    split
    · simp [Reply.isHit, hlookup]
    · split
      · simp [Reply.isHit, hlookup]
      · simp [Reply.isHit, calls_store, hlookup]

end Pipeline

namespace Session

theorem calls_change (s : Session) (directory : Option Directory) :
    (s.change directory).state.pipeline.calls = s.pipeline.calls := by
  cases directory <;> rfl

theorem calls_step (s : Session) (step : Step) :
    (s.step step).state.pipeline.calls =
      s.pipeline.calls + if step.needsBackend && !(s.step step).value.isHit then 1 else 0 := by
  cases step with
  | preprocess => exact s.pipeline.calls_preprocess ..
  | transpile => exact s.pipeline.calls_transpile ..
  | plant | plantFolder | remove => exact s.calls_change _
  | _ => rfl

/-- The backend is called once for each transpilation of a source that is not blank,
    if the answer does not come from the cache. -/
theorem calls_after (s : Session) (steps : List Step) :
    (s.after steps).pipeline.calls =
      s.pipeline.calls + (steps.zip (s.exec steps).2).countP fun call =>
        call.1.needsBackend && !call.2.reply.isHit := by
  induction steps generalizing s with
  | nil => rfl
  | cons step steps ih =>
    rw [after_cons, ih, calls_step]
    simp only [records_cons, List.zip_cons_cons, List.countP_cons]
    omega

theorem calls_run (s : Session) (steps : List Step) :
    (s.run steps).1.pipeline.calls =
      s.pipeline.calls + (steps.zip (s.run steps).2).countP fun call =>
        call.1.needsBackend && !call.2.reply.isHit := by
  induction steps generalizing s with
  | nil => rfl
  | cons step steps ih =>
    have hflush : ((s.step step).state.step .flush).state.pipeline.calls =
        (s.step step).state.pipeline.calls := rfl
    simp only [run, ih, hflush, calls_step, List.zip_cons_cons, List.countP_cons]
    omega

end Session
end BanglaSource
