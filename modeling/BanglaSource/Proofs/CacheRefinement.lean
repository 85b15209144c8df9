-- SUMMARY: The two-tier cache refines a plain map, as far as lookups need not wait for pending writes.
import BanglaSource.Proofs.ContentKeys
import BanglaSource.Proofs.SessionRuns
import BanglaSource.Session
import Mathlib.Algebra.Ring.Nat

/-!
# Refinement of a plain map

A plain cache is a map from sources and options to entries, without keys, tiers,
capacities, files or pending writes. Each step of a session on a working directory of
its own is matched by a step of the plain cache, so both find the same entries. Since a
plain cache has no capacity and keeps its map when it is reopened, neither has any
influence on what a lookup finds.

A lookup can come too early: it looks on disk for an entry that is no longer in memory
and whose write is still pending. It then finds an older entry, which it copies into
memory, or none. So a run is matched as long as its lookups are in time, and a run that
waits for its writes is matched always.
-/
namespace BanglaSource

/-! ## Steps -/

namespace Step

/-- The source and the options for which a step looks up or stores an entry. -/
def use? : Step → Option (Text × Json)
  | .get source options => some (source, options)
  | .set source options _ _ => some (source, options)
  | _ => none

/-- Steps that use the cache directly and leave its files alone, and those of the
    background writer. What they store survives being stored. -/
def IsPlain : Step → Prop
  | .set _ options _ positionMap =>
    options.Storable ∧ ∀ m ∈ positionMap, m ≠ .null ∧ m.Storable
  | .get .. | .clear | .enable _ | .write | .flush | .stats | .reopen _ | .sleep _ => True
  | _ => False

end Step

/-! ## Plain caches -/

/-- A cache as a map from sources and options to entries, with a clock. -/
structure PlainCache where
  clock : Nat
  enabled : Bool
  stored : Text → Json → Option Entry

namespace PlainCache

def start (config : CacheConfig) (clock : Nat) : PlainCache where
  clock := clock
  enabled := config.enabled
  stored _ _ := none

/-- Looks up an entry. -/
def get (p : PlainCache) (source : Text) (options : Json) : Option Entry :=
  if p.enabled then p.stored source options else none

/-- Stores an entry for a source and for all options that are the same value. -/
def set (p : PlainCache) (source : Text) (options : Json) (e : Entry) : PlainCache :=
  if p.enabled then
    { p with
      stored := fun source' options' =>
        if source = source' ∧ options.Same options' then some e else p.stored source' options' }
  else p

/-- One step in a session with the given configuration. -/
def step (config : CacheConfig) (p : PlainCache) : Step → PlainCache
  | .set source options output positionMap =>
    p.set source options (.new p.clock options output positionMap)
  | .clear => { p with stored := fun _ _ => none }
  | .enable enabled => { p with enabled := enabled }
  | .reopen other => { p with enabled := (other.getD config).enabled }
  | .sleep milliseconds => { p with clock := p.clock + milliseconds }
  | _ => p

/-- The plain cache after steps. -/
def after (config : CacheConfig) (p : PlainCache) (steps : List Step) : PlainCache :=
  steps.foldl (step config) p

/-- What a step finds if it is a lookup. -/
def found? (p : PlainCache) : Step → Option (Option Entry)
  | .get source options => some (p.get source options)
  | _ => none

/-- What each step of a run finds. -/
def run (config : CacheConfig) (p : PlainCache) : List Step → List (Option (Option Entry))
  | [] => []
  | step :: steps => p.found? step :: run config (p.step config step) steps

theorem clock_set (p : PlainCache) (source : Text) (options : Json) (e : Entry) :
    (p.set source options e).clock = p.clock := by
  unfold set
  split <;> rfl

theorem enabled_set (p : PlainCache) (source : Text) (options : Json) (e : Entry) :
    (p.set source options e).enabled = p.enabled := by
  unfold set
  split <;> rfl

theorem stored_set (p : PlainCache) (source : Text) (options : Json) (e : Entry)
    (source' : Text) (options' : Json) :
    (p.set source options e).stored source' options' =
      if p.enabled = true ∧ source = source' ∧ options.Same options' then some e
      else p.stored source' options' := by
  cases henabled : p.enabled <;> simp [set, henabled]

theorem clock_step (config : CacheConfig) (p : PlainCache) (step : Step) :
    (p.step config step).clock = p.clock + step.pause := by
  cases step with
  | set source options output positionMap => exact clock_set ..
  | _ => rfl

end PlainCache

/-! ## Lookups in time -/

namespace Session

/-- Whether a step is no lookup that comes before the write of what it looks for. -/
def Timely (s : Session) : Step → Prop
  | .get source options =>
    s.pipeline.cache.enabled = true → s.pipeline.cache.Settled (ContentKey.of source options)
  | _ => True

/-- Whether each lookup of a run is in time, in the state in which it runs. -/
def InTime (s : Session) : List Step → Prop
  | [] => True
  | step :: steps => s.Timely step ∧ InTime (s.step step).state steps

theorem timely_of_pending_eq_nil {s : Session} (h : s.pipeline.cache.pending = []) (step : Step) :
    s.Timely step := by
  cases step with
  | get source options => exact fun _ => Cache.settled_of_pending_eq_nil h _
  | _ => trivial

/-! ## Simulation -/

variable {config : CacheConfig} {uses : List (Text × Json)} {s : Session} {p : PlainCache}

/-- Whether a session holds what a plain cache holds, for the sources and options
    that are in use. -/
structure Refines (config : CacheConfig) (uses : List (Text × Json)) (s : Session)
    (p : PlainCache) : Prop where
  config_eq : s.config = config
  clock_eq : s.clock = p.clock
  enabled_eq : s.pipeline.cache.enabled = p.enabled
  stored : ∃ keyed, s.pipeline.cache.Holds id keyed ∧
    ∀ u ∈ uses, keyed (ContentKey.of u.1 u.2) = p.stored u.1 u.2

/-- A step that changes neither the map nor the settings. -/
theorem Refines.withCache (h : s.Refines config uses p) {c : Cache}
    (hholds : ∀ keyed, s.pipeline.cache.Holds id keyed → c.Holds id keyed)
    (henabled : c.enabled = s.pipeline.cache.enabled) : (s.withCache c).Refines config uses p := by
  obtain ⟨keyed, hkeyed, hstored⟩ := h.stored
  exact ⟨h.config_eq, h.clock_eq, henabled.trans h.enabled_eq, keyed, hholds keyed hkeyed, hstored⟩

theorem Refines.set (h : s.Refines config uses p) (hseparated : ContentKey.Separated uses)
    {source : Text} {options : Json} {output : Text} {map : Option Json}
    (huse : (source, options) ∈ uses) (hoptions : options.Storable)
    (hentry : (Entry.new s.clock options output map).Storable) :
    (s.step (.set source options output map)).state.Refines config uses
      (p.set source options (.new s.clock options output map)) := by
  obtain ⟨keyed, hholds, hstored⟩ := h.stored
  refine ⟨h.config_eq, h.clock_eq.trans (p.clock_set ..).symm, ?_, _,
    hholds.set ⟨_, hentry.parse?_print, rfl⟩, ?_⟩
  · exact (Cache.enabled_set ..).trans (h.enabled_eq.trans (p.enabled_set ..).symm)
  · rintro ⟨source', options'⟩ hu
    -- Of the sources and options in use, only the same ones have the key that is updated.
    have hkey := hseparated.of_eq_iff huse hoptions.whole hu
    have hold := hstored _ hu
    rw [PlainCache.stored_set, h.enabled_eq]
    cases henabled : p.enabled with
    | false => simpa using hold
    | true =>
      simp only [if_true, true_and, Function.update_apply,
        eq_comm (b := ContentKey.of source options), hkey]
      split
      · rfl
      · exact hold

/-- A lookup in time finds the entry of the plain cache. -/
theorem Refines.get (h : s.Refines config uses p) {source : Text} {options : Json}
    (huse : (source, options) ∈ uses) (htimely : s.Timely (.get source options)) :
    (s.pipeline.cache.get source options).value = p.get source options := by
  obtain ⟨keyed, hholds, hstored⟩ := h.stored
  have hvalue := (hholds.get_of_settled htimely).2
  rwa [Option.map_id, id_eq, h.enabled_eq, hstored _ huse] at hvalue

/-- Each step in time is matched by a step of the plain cache that finds the same entry. -/
theorem Refines.step (h : s.Refines config uses p) (hseparated : ContentKey.Separated uses)
    {step : Step} (hplain : step.IsPlain) (huse : ∀ u ∈ step.use?, u ∈ uses)
    (hclock : s.clock < 2 ^ 64) (htimely : s.Timely step) :
    (s.step step).state.Refines config uses (p.step config step) ∧
    (s.step step).value.found? = p.found? step := by
  cases step with
  | get source options =>
    exact ⟨h.withCache (fun _ hkeyed => (hkeyed.get_of_settled htimely).1)
      (Cache.enabled_get ..), congrArg some (h.get (huse _ rfl) htimely)⟩
  | set source options output map =>
    obtain ⟨hoptions, hmap⟩ := hplain
    have hset := h.set hseparated (huse _ rfl) hoptions
      (Entry.storable_new hclock hoptions hmap output)
    rw [h.clock_eq] at hset
    exact ⟨hset, rfl⟩
  | clear =>
    obtain ⟨keyed, hholds, -⟩ := h.stored
    exact ⟨⟨h.config_eq, h.clock_eq, (Cache.enabled_clear _).trans h.enabled_eq,
      _, hholds.clear, fun _ _ => rfl⟩, rfl⟩
  | enable enabled =>
    obtain ⟨keyed, hholds, hstored⟩ := h.stored
    exact ⟨⟨h.config_eq, h.clock_eq, rfl, keyed,
      ⟨hholds.memory, hholds.disk, hholds.survives⟩, hstored⟩, rfl⟩
  | write =>
    exact ⟨h.withCache (fun _ hkeyed => hkeyed.writeNext) (Cache.enabled_writeNext _), rfl⟩
  | flush => exact ⟨h.withCache (fun _ hkeyed => hkeyed.flush) rfl, rfl⟩
  | stats =>
    refine ⟨h.withCache (fun _ hkeyed => ?_) ?_, rfl⟩ <;> rw [Cache.state_stats]
    · exact hkeyed.flush
    · rfl
  | reopen other =>
    obtain ⟨keyed, hholds, hstored⟩ := h.stored
    refine ⟨⟨h.config_eq, h.clock_eq, ?_, keyed, hholds.reopen _, hstored⟩, rfl⟩
    simp [Session.step, Session.withCache, Cache.new, PlainCache.step, h.config_eq]
  | sleep milliseconds =>
    refine ⟨⟨h.config_eq, ?_, h.enabled_eq, h.stored⟩, rfl⟩
    simp [Session.step, PlainCache.step, h.clock_eq]
  | preprocess | transpile | invalidate | calls | files | entryFile | plant | plantFolder
  | remove => cases hplain

section Runs

variable {steps : List Step} (hseparated : ContentKey.Separated uses)
  (hplain : ∀ step ∈ steps, step.IsPlain) (huses : ∀ step ∈ steps, ∀ u ∈ step.use?, u ∈ uses)
  (hclock : s.clock + (steps.map Step.pause).sum < 2 ^ 64)

include hseparated hplain huses hclock

/-- The lookups of a run in time find what they find in the plain cache, and leave the
    same map. -/
theorem Refines.exec (h : s.Refines config uses p) (htime : s.InTime steps) :
    (s.exec steps).2.map (·.reply.found?) = p.run config steps ∧
    (s.after steps).Refines config uses (p.after config steps) := by
  induction steps generalizing s p with
  | nil => exact ⟨rfl, h⟩
  | cons step steps ih =>
    rw [List.forall_mem_cons] at hplain huses
    rw [List.map_cons, List.sum_cons] at hclock
    obtain ⟨hstate, hfound⟩ := h.step hseparated hplain.1 huses.1 (by omega) htime.1
    obtain ⟨htail, hlast⟩ := ih hplain.2 huses.2 (by rw [clock_step]; omega) hstate htime.2
    refine ⟨?_, hlast⟩
    simp only [Session.exec, List.map_cons, PlainCache.run]
    rw [hfound, htail]

/-- A run that waits for its writes finds what it finds in the plain cache. -/
theorem Refines.run (h : s.Refines config uses p) (hpending : s.pipeline.cache.pending = []) :
    (s.run steps).2.map (·.reply.found?) = p.run config steps := by
  induction steps generalizing s p with
  | nil => rfl
  | cons step steps ih =>
    rw [List.forall_mem_cons] at hplain huses
    rw [List.map_cons, List.sum_cons] at hclock
    obtain ⟨hstate, hfound⟩ := h.step hseparated hplain.1 huses.1 (by omega)
      (timely_of_pending_eq_nil hpending step)
    have hflushed : ((s.step step).state.step .flush).state.Refines config uses
        (p.step config step) := hstate.withCache (fun _ hkeyed => hkeyed.flush) rfl
    have hlater : ((s.step step).state.step .flush).state.clock = s.clock + step.pause :=
      s.clock_step step
    have htail := ih hplain.2 huses.2 (by rw [hlater]; omega) hflushed rfl
    simp only [Session.run, List.map_cons, PlainCache.run]
    rw [hfound, htail]

end Runs

end Session
end BanglaSource
