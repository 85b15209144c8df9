-- SUMMARY: Sessions: steps on a pipeline, its cache and its directory, one after another, under a clock.
import BanglaSource.Pipeline

/-!
# Sessions

A session runs steps on one pipeline. Some steps call the pipeline or its cache,
some reopen the pipeline on the same directory, some change the directory behind
its back, and some let time pass. The backend and the count of its calls survive
reopening. The background writer of the cache has a step of its own, which may come
between any two others, so a list of steps also says when the writes are done.
-/
namespace BanglaSource

/-- A step of a session. Files are named within the cache directory. -/
inductive Step where
  | preprocess (source : Text) (options : Options)
  | transpile (source file : Text) (options : Options)
  | get (source : Text) (options : Json)
  | set (source : Text) (options : Json) (output : Text) (positionMap : Option Json)
  | invalidate (maxAge : Option Nat)
  | clear
  | enable (enabled : Bool)
  /-- The background writer does the oldest pending write, if there is one. -/
  | write
  /-- Waits until no write is pending. -/
  | flush
  | stats
  | calls
  /-- Closes the pipeline when no write is pending and opens a new one, with the
      configuration of the session if none is given. -/
  | reopen (config : Option CacheConfig)
  | sleep (milliseconds : Nat)
  | files
  | entryFile (name : Text)
  | plant (name : Text) (content : Content)
  | plantFolder (name : Text)
  | remove (name : Text)

/-- The result of a step. -/
inductive Reply where
  | done
  | preprocessed (answer : Preprocessed)
  /-- The last field is the target text, under the name of the file. -/
  | transpiled (answer : Except Failure Transpiled) (target : SourceFile)
  | entry (found : Option Entry)
  | count (n : Nat)
  | flag (value : Bool)
  | stats (value : CacheStats)
  | names (found : Option (List Text))
  /-- What an entry file holds: nothing that can be read, no entry, or one. -/
  | entryFile (found : Option (Option Entry))
  | succeeded (value : Bool)

/-- The state between two steps. -/
structure Session where
  pipeline : Pipeline
  config : CacheConfig
  /-- The time in milliseconds. -/
  clock : Nat

namespace Session

/-- A session on a directory that starts at time `clock`. -/
def start (backend : Backend) (config : CacheConfig) (directory : Directory) (clock : Nat) :
    Session where
  pipeline := { backend := backend, cache := .new config directory }
  config := config
  clock := clock

/-- Lets a change happen behind the back of the pipeline. -/
def change (s : Session) (after : Option Directory) : Outcome Session Reply :=
  match after with
  | none => ⟨s, .succeeded false, []⟩
  | some directory =>
    let cache := { s.pipeline.cache with directory := directory }
    ⟨{ s with pipeline := { s.pipeline with cache := cache } }, .succeeded true, []⟩

/-- The state with another cache. -/
def withCache (s : Session) (cache : Cache) : Session :=
  { s with pipeline := { s.pipeline with cache := cache } }

/-- One step. -/
def step (s : Session) : Step → Outcome Session Reply
  | .preprocess source options =>
    let out := s.pipeline.preprocess s.clock source options
    ⟨{ s with pipeline := out.state }, .preprocessed out.value, out.events⟩
  | .transpile source file options =>
    let out := s.pipeline.transpile s.clock source file options
    let target := targetText options.keepNames source
    ⟨{ s with pipeline := out.state }, .transpiled out.value ⟨file, target⟩, out.events⟩
  | .get source options =>
    let out := s.pipeline.cache.get source options
    ⟨s.withCache out.state, .entry out.value, out.events⟩
  | .set source options output positionMap =>
    let out := s.pipeline.cache.set s.clock source options output positionMap
    ⟨s.withCache out.state, .done, out.events⟩
  | .invalidate maxAge =>
    let out := s.pipeline.cache.invalidate s.clock maxAge
    ⟨s.withCache out.state, .count out.value, out.events⟩
  | .clear =>
    let out := s.pipeline.cache.clear
    ⟨s.withCache out.state, .flag out.state.directory.isThere, out.events⟩
  | .enable enabled =>
    let cache := s.pipeline.cache.setEnabled enabled
    ⟨s.withCache cache, .flag cache.enabled, []⟩
  | .write => ⟨s.withCache s.pipeline.cache.writeNext, .done, []⟩
  | .flush => ⟨s.withCache s.pipeline.cache.flush, .done, []⟩
  | .stats =>
    let out := s.pipeline.cache.stats
    ⟨s.withCache out.state, .stats out.value, out.events⟩
  | .calls => ⟨s, .count s.pipeline.calls, []⟩
  | .reopen config =>
    let cache := Cache.new (config.getD s.config) s.pipeline.cache.flush.directory
    ⟨s.withCache cache, .done, []⟩
  | .sleep milliseconds => ⟨{ s with clock := s.clock + milliseconds }, .done, []⟩
  | .files => ⟨s, .names s.pipeline.cache.directory.names?, []⟩
  | .entryFile name =>
    let found := match s.pipeline.cache.directory.read name with
      | .text text => some (Entry.parse? text)
      | .missing | .failed => none
    ⟨s, .entryFile found, []⟩
  | .plant name content =>
    s.change (s.pipeline.cache.directory.create?.bind (·.write? name content))
  | .plantFolder name =>
    s.change (s.pipeline.cache.directory.create?.bind (·.createFolder? name))
  | .remove name => s.change (s.pipeline.cache.directory.remove? name)

/-- The result of a step with the events it reports. -/
structure Record where
  reply : Reply
  events : List Event

/-- All steps in order: the state after them and the records of each. -/
def exec (s : Session) : List Step → Session × List Record
  | [] => (s, [])
  | step :: steps =>
    let out := s.step step
    let (last, records) := exec out.state steps
    (last, ⟨out.value, out.events⟩ :: records)

/-- All steps in order, by a caller who waits after each of them until no write is
    pending. -/
def run (s : Session) : List Step → Session × List Record
  | [] => (s, [])
  | step :: steps =>
    let out := s.step step
    let (last, records) := run (out.state.step .flush).state steps
    (last, ⟨out.value, out.events⟩ :: records)

end Session
end BanglaSource
