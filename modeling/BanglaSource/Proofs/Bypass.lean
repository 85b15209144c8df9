-- SUMMARY: Steps that bypass the cache leave it as it is, and putting them into a run changes nothing but the count of backend calls.
import BanglaSource.Proofs.SessionRuns

/-!
# Bypassing the cache

A step bypasses the cache if the cache is disabled, or if the call does not ask for
it. Such a step changes the count of backend calls at most, and leaves no write pending
that was not pending before. No step but the one that reports the count depends on it.
So the other steps of a run, those of the background writer among them, do not notice
steps that are put in between them and bypass the cache.
-/
namespace BanglaSource

/-! ## The count of calls -/

/-- The outcome with another state. -/
def Outcome.mapState {σ τ α : Type} (f : σ → τ) (out : Outcome σ α) : Outcome τ α :=
  ⟨f out.state, out.value, out.events⟩

namespace Pipeline

/-- The pipeline with `n` more calls of its backend. -/
def addCalls (n : Nat) (p : Pipeline) : Pipeline :=
  { p with calls := p.calls + n }

@[simp] theorem backend_addCalls (n : Nat) (p : Pipeline) : (p.addCalls n).backend = p.backend :=
  rfl

theorem lookup_addCalls (p : Pipeline) (n : Nat) (useCache : Bool) (r : Request) :
    (p.addCalls n).lookup useCache r = (p.lookup useCache r).mapState (addCalls n) := by
  cases useCache <;> rfl

theorem store_addCalls (p : Pipeline) (n now : Nat) (useCache : Bool) (r : Request) (output : Text)
    (map : Option Json) :
    (p.addCalls n).store now useCache r output map =
      (p.store now useCache r output map).mapState (addCalls n) := by
  cases useCache <;> rfl

theorem preprocess_addCalls (p : Pipeline) (n now : Nat) (source : Text) (options : Options) :
    (p.addCalls n).preprocess now source options =
      (p.preprocess now source options).mapState (addCalls n) := by
  simp only [preprocess, lookup_addCalls, Outcome.mapState]
  split
  · rfl
  · rw [store_addCalls]
    rfl

theorem transpile_addCalls (p : Pipeline) (n now : Nat) (source file : Text) (options : Options) :
    (p.addCalls n).transpile now source file options =
      (p.transpile now source file options).mapState (addCalls n) := by
  simp only [transpile, lookup_addCalls]
  generalize p.lookup options.useCache _ = found
  -- The call that the transpilation makes itself is counted before the others.
  have hcount : ({ found.state.addCalls n with calls := (found.state.addCalls n).calls + 1 } :
      Pipeline) = addCalls n { found.state with calls := found.state.calls + 1 } := by
    simp only [addCalls, Nat.add_right_comm]
  simp only [Outcome.mapState]
  split
  · rfl
  · split
    · rfl
    · rw [hcount]
      cases hcompile : compile found.state.backend source file options.keepNames with
      | error failure => simp only [backend_addCalls, hcompile]
      | ok c => simp only [backend_addCalls, hcompile, store_addCalls, Outcome.mapState]

end Pipeline

namespace Session

/-- The session with `n` more calls of its backend. -/
def addCalls (n : Nat) (s : Session) : Session :=
  { s with pipeline := s.pipeline.addCalls n }

@[simp] theorem addCalls_addCalls (s : Session) (m n : Nat) :
    (s.addCalls m).addCalls n = s.addCalls (m + n) := by
  simp only [addCalls, Pipeline.addCalls, Nat.add_assoc]

theorem change_addCalls (s : Session) (n : Nat) (directory : Option Directory) :
    (s.addCalls n).change directory = (s.change directory).mapState (addCalls n) := by
  cases directory <;> rfl

/-- Steps do the same with another count and add to it as they do. Only the one that
    reports the count tells the difference. -/
theorem step_addCalls (s : Session) (n : Nat) {step : Step} (h : step ≠ .calls) :
    (s.addCalls n).step step = (s.step step).mapState (addCalls n) := by
  cases step with
  | preprocess source options =>
    simp only [Session.step, addCalls, Pipeline.preprocess_addCalls]
    rfl
  | transpile source file options =>
    simp only [Session.step, addCalls, Pipeline.transpile_addCalls]
    rfl
  | plant | plantFolder | remove => exact s.change_addCalls n _
  | calls => exact absurd rfl h
  | _ => rfl

theorem state_step_addCalls (s : Session) (n : Nat) (step : Step) :
    ((s.addCalls n).step step).state = (s.step step).state.addCalls n := by
  by_cases h : step = .calls
  · subst h
    rfl
  · rw [step_addCalls s n h]
    rfl

theorem after_addCalls (s : Session) (n : Nat) (steps : List Step) :
    (s.addCalls n).after steps = (s.after steps).addCalls n := by
  induction steps generalizing s with
  | nil => rfl
  | cons step steps ih => rw [after_cons, after_cons, state_step_addCalls, ih]

end Session

/-! ## Steps that bypass the cache -/

/-- Whether a step leaves the cache aside, while the cache is enabled or not. -/
def Step.bypasses (enabled : Bool) : Step → Bool
  | .preprocess _ options | .transpile _ _ options => !(enabled && options.useCache)
  | .get .. | .set .. => !enabled
  | _ => false

/-- Whether a reply holds an answer or an entry out of the cache. -/
def Reply.isFromCache (reply : Reply) : Bool :=
  reply.isHit || (reply.found?.bind id).isSome

namespace Pipeline

variable {p : Pipeline} {useCache : Bool}

theorem lookup_of_bypass (h : (p.cache.enabled && useCache) = false) (r : Request) :
    p.lookup useCache r = ⟨p, none, []⟩ := by
  cases useCache with
  | false => rfl
  | true =>
    rw [Bool.and_true] at h
    simp [lookup, Cache.get, h]

theorem store_of_bypass (h : (p.cache.enabled && useCache) = false) (now : Nat) (r : Request)
    (output : Text) (map : Option Json) : p.store now useCache r output map = ⟨p, (), []⟩ := by
  cases useCache with
  | false => rfl
  | true =>
    rw [Bool.and_true] at h
    simp [store, Cache.set, h]

theorem preprocess_of_bypass {options : Options}
    (h : (p.cache.enabled && options.useCache) = false) (now : Nat) (source : Text) :
    p.preprocess now source options = ⟨p, ⟨targetText options.keepNames source, false⟩, []⟩ := by
  simp only [preprocess, lookup_of_bypass h, store_of_bypass h]
  rfl

theorem transpile_of_bypass {options : Options}
    (h : (p.cache.enabled && options.useCache) = false) (now : Nat) (source file : Text)
    (target : SourceFile) :
    (p.transpile now source file options).state =
      p.addCalls (if !Text.isBlankText source then 1 else 0) ∧
    (Reply.transpiled (p.transpile now source file options).value target).isFromCache = false := by
  cases hblank : Text.isBlankText source with
  | true =>
    simp only [transpile, hblank]
    exact ⟨rfl, rfl⟩
  | false =>
    simp only [transpile, hblank, lookup_of_bypass h, Bool.false_eq_true, if_false]
    split
    · exact ⟨rfl, rfl⟩
    · have hcalled : (({ p with calls := p.calls + 1 } : Pipeline).cache.enabled &&
          options.useCache) = false := h
      rw [store_of_bypass hcalled]
      exact ⟨rfl, rfl⟩

end Pipeline

namespace Session

/-- A step that bypasses the cache adds at most a call of the backend to the state, and
    its reply is not out of the cache. -/
theorem step_of_bypasses {s : Session} {step : Step}
    (h : step.bypasses s.pipeline.cache.enabled = true) :
    (s.step step).state = s.addCalls (if step.needsBackend then 1 else 0) ∧
    (s.step step).value.isFromCache = false := by
  cases step with
  | preprocess source options =>
    have haside : (s.pipeline.cache.enabled && options.useCache) = false := by
      simpa only [Step.bypasses, Bool.not_eq_true'] using h
    simp only [Session.step, Pipeline.preprocess_of_bypass haside]
    exact ⟨rfl, rfl⟩
  | transpile source file options =>
    have haside : (s.pipeline.cache.enabled && options.useCache) = false := by
      simpa only [Step.bypasses, Bool.not_eq_true'] using h
    obtain ⟨hstate, hreply⟩ := Pipeline.transpile_of_bypass haside s.clock source file
      ⟨file, targetText options.keepNames source⟩
    exact ⟨congrArg (fun p => { s with pipeline := p }) hstate, hreply⟩
  | get source options =>
    have hdisabled : s.pipeline.cache.enabled = false := by
      simpa only [Step.bypasses, Bool.not_eq_true'] using h
    simp only [Session.step, Cache.get, hdisabled]
    exact ⟨rfl, rfl⟩
  | set source options output map =>
    have hdisabled : s.pipeline.cache.enabled = false := by
      simpa only [Step.bypasses, Bool.not_eq_true'] using h
    simp only [Session.step, Cache.set, hdisabled]
    exact ⟨rfl, rfl⟩
  | _ => cases h

end Session

/-! ## Steps put into a run -/

/-- A step of a run, and whether it was put into the run. -/
structure Placed where
  step : Step
  inserted : Bool

namespace Placed

/-- The steps of a run. -/
def all (run : List Placed) : List Step :=
  run.map (·.step)

/-- The steps of a run without those put in. -/
def own (run : List Placed) : List Step :=
  (run.filter (!·.inserted)).map (·.step)

/-- The calls of the backend that steps put in make if they bypass the cache. -/
def insertedCalls (run : List Placed) : Nat :=
  run.countP fun x => x.inserted && x.step.needsBackend

theorem length_all (run : List Placed) : (all run).length = run.length :=
  List.length_map _

theorem all_append_cons (before : List Placed) (x : Placed) (later : List Placed) :
    all (before ++ x :: later) = all before ++ x.step :: all later :=
  List.map_append

theorem own_append_cons {x : Placed} (h : x.inserted = false) (before later : List Placed) :
    own (before ++ x :: later) = own before ++ x.step :: own later := by
  simp [own, h]

theorem own_cons (x : Placed) (run : List Placed) :
    own (x :: run) = if x.inserted then own run else x.step :: own run := by
  cases hx : x.inserted <;> simp [own, hx]

end Placed

namespace Session

/-- Whether each step put into a run bypasses the cache in the state in which it runs. -/
def InsertedBypass (s : Session) : List Placed → Prop
  | [] => True
  | x :: run =>
    (x.inserted = true → x.step.bypasses s.pipeline.cache.enabled = true) ∧
    InsertedBypass (s.step x.step).state run

theorem insertedBypass_append {s : Session} {before later : List Placed} :
    s.InsertedBypass (before ++ later) ↔
      s.InsertedBypass before ∧ (s.after (Placed.all before)).InsertedBypass later := by
  induction before generalizing s with
  | nil => exact ⟨fun h => ⟨trivial, h⟩, fun h => h.2⟩
  | cons x before ih =>
    simp only [List.cons_append, InsertedBypass, ih, and_assoc]
    rfl

/-- The state after a run is that after its own steps, but for the calls that the
    others made. -/
theorem after_of_insertedBypass {s : Session} {run : List Placed} (h : s.InsertedBypass run) :
    s.after (Placed.all run) = (s.after (Placed.own run)).addCalls (Placed.insertedCalls run) := by
  induction run generalizing s with
  | nil => rfl
  | cons x run ih =>
    obtain ⟨hstep, hrun⟩ := h
    have hafter : s.after (Placed.all (x :: run)) =
        (s.step x.step).state.after (Placed.all run) := rfl
    rw [hafter, ih hrun, Placed.own_cons]
    cases hx : x.inserted with
    | false =>
      simp only [Bool.false_eq_true, if_false, Placed.insertedCalls, List.countP_cons, hx,
        Bool.false_and, Nat.add_zero, after_cons]
    | true =>
      rw [(step_of_bypasses (hstep hx)).1, after_addCalls, addCalls_addCalls, Nat.add_comm]
      simp only [if_true, Placed.insertedCalls, List.countP_cons, hx, Bool.true_and]

/-- Steps that bypass the cache leave it as it is, with its pending writes, and report
    nothing out of it. Put into a run, they change no reply and no events of its own steps
    but the count of backend calls, which grows by the calls that they make. -/
theorem exec_insertedBypass (s : Session) (run : List Placed) (h : s.InsertedBypass run) :
    ((∀ x ∈ run, x.inserted = true) →
      (s.after (Placed.all run)).pipeline.cache = s.pipeline.cache) ∧
    s.after (Placed.all run) = (s.after (Placed.own run)).addCalls (Placed.insertedCalls run) ∧
    ∀ before x later, run = before ++ x :: later →
      ∃ record, (s.exec (Placed.all run)).2[before.length]? = some record ∧
        (x.inserted = true →
          (s.after (Placed.all before ++ [x.step])).pipeline.cache =
            (s.after (Placed.all before)).pipeline.cache ∧
          record.reply.isFromCache = false) ∧
        (x.inserted = false → x.step ≠ .calls →
          (s.exec (Placed.own run)).2[(Placed.own before).length]? = some record) ∧
        (x.inserted = false → x.step = .calls →
          ∃ n, record.reply = .count (n + Placed.insertedCalls before) ∧
            (s.exec (Placed.own run)).2[(Placed.own before).length]? =
              some ⟨.count n, record.events⟩) := by
  have hstate := after_of_insertedBypass h
  refine ⟨fun hall => ?_, hstate, ?_⟩
  · have hown : Placed.own run = [] := by simpa [Placed.own] using hall
    rw [hstate, hown]
    rfl
  · rintro before x later rfl
    obtain ⟨hbefore, hx, -⟩ := insertedBypass_append.1 h
    have hprefix := after_of_insertedBypass hbefore
    have hrecord := s.getElem?_records (Placed.all before) x.step (Placed.all later)
    rw [← Placed.all_append_cons, Placed.length_all] at hrecord
    refine ⟨_, hrecord, fun hinserted => ?_, fun hown hcalls => ?_, fun hown hcalls => ?_⟩
    · obtain ⟨hunchanged, hreply⟩ := step_of_bypasses (hx hinserted)
      rw [after_concat, hunchanged]
      exact ⟨rfl, hreply⟩
    · rw [Placed.own_append_cons hown, getElem?_records, hprefix, step_addCalls _ _ hcalls]
      rfl
    · rw [Placed.own_append_cons hown, getElem?_records, hprefix, hcalls]
      exact ⟨_, rfl, rfl⟩

/-- A run in which a request is served from the cache, with steps in between that bypass
    the cache: two while it is disabled and a write is pending, and one that does not ask
    for it. -/
def bypassingRun : List Placed :=
  [⟨.preprocess "ক" {}, false⟩, ⟨.enable false, false⟩, ⟨.set "ক" .null "খ" none, true⟩,
    ⟨.transpile "ক" "main" {}, true⟩, ⟨.write, false⟩, ⟨.enable true, false⟩,
    ⟨.preprocess "খ" { useCache := false }, true⟩, ⟨.preprocess "ক" {}, false⟩, ⟨.calls, false⟩]

theorem exec_insertedBypass_bypassingRun :
    let s : Session := .start .passthrough {} .missing 0
    s.InsertedBypass bypassingRun ∧
    s.after (Placed.all bypassingRun) = (s.after (Placed.own bypassingRun)).addCalls 1 ∧
    (∃ record, (s.exec (Placed.all bypassingRun)).2[7]? = some record ∧
      (s.exec (Placed.own bypassingRun)).2[4]? = some record) ∧
    ∃ record, (s.exec (Placed.all bypassingRun)).2[3]? = some record ∧
      record.reply.isFromCache = false := by
  intro s
  have h : s.InsertedBypass bypassingRun := by
    simp [bypassingRun, InsertedBypass, Step.bypasses, enabled_step, Step.enabledAfter]
  obtain ⟨-, hstate, hsteps⟩ := exec_insertedBypass s bypassingRun h
  obtain ⟨record, hrecord, -, hown, -⟩ := hsteps (bypassingRun.take 7) _ _ rfl
  obtain ⟨record', hrecord', hinserted, -⟩ := hsteps (bypassingRun.take 3) _ _ rfl
  exact ⟨h, hstate, ⟨record, hrecord, hown rfl nofun⟩, record', hrecord', (hinserted rfl).2⟩

end Session
end BanglaSource
