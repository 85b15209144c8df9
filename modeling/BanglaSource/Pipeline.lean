-- SUMMARY: Preprocessing and transpilation with a cache in front of the target pass and the backend.
import BanglaSource.Cache
import BanglaSource.Failure
import BanglaSource.Options
import BanglaSource.Target

/-!
# Pipeline

Preprocessing gives the target text of a source; transpilation also runs the
backend on it. Both look into the cache first and store what they compute, if the
cache is enabled and the call asks for it. A source of blanks only has empty code
and touches neither cache nor backend. A refusal is not stored.
-/
namespace BanglaSource

/-- What is asked of a pipeline, apart from the use of its cache. -/
inductive Request where
  | preprocess (source : Text) (keepNames : Bool)
  | transpile (source : Text) (file : Text) (keepNames : Bool)
deriving DecidableEq, Repr

namespace Request

def source : Request → Text
  | preprocess source _ => source
  | transpile source _ _ => source

def stageName : Request → Text
  | preprocess .. => "preprocess"
  | transpile .. => "transpile"

/-- The options under which the answer is cached. The stage keeps the two kinds
    of request for one source apart. -/
def keyOptions (r : Request) : Json :=
  match r with
  | preprocess _ keepNames =>
    .obj [("no_transliterate", .bool keepNames), ("stage", .str r.stageName)]
  | transpile _ file keepNames =>
    .obj [("file_name", .str file), ("no_transliterate", .bool keepNames),
      ("stage", .str r.stageName)]

/-- The key under which the answer is cached. -/
def key (r : Request) : Text :=
  ContentKey.of r.source r.keyOptions

end Request

/-- The answer to preprocessing. -/
structure Preprocessed where
  text : Text
  fromCache : Bool
deriving DecidableEq, Repr

/-- The answer to transpilation. -/
structure Transpiled where
  code : Text
  map : Option Json
  fromCache : Bool
deriving Repr

/-- A backend with a cache in front. -/
structure Pipeline where
  backend : Backend
  cache : Cache
  /-- How often the backend was called. -/
  calls : Nat := 0

namespace Pipeline

/-- Looks up the answer to a request, if the call uses the cache. -/
def lookup (p : Pipeline) (useCache : Bool) (r : Request) : Outcome Pipeline (Option Entry) :=
  if useCache then
    let found := p.cache.get r.source r.keyOptions
    let served := if found.value.isSome then [.served r.stageName] else []
    ⟨{ p with cache := found.state }, found.value, found.events ++ served⟩
  else ⟨p, none, []⟩

/-- Stores the answer to a request, if the call uses the cache. -/
def store (p : Pipeline) (now : Nat) (useCache : Bool) (r : Request) (output : Text)
    (map : Option Json) : Outcome Pipeline Unit :=
  if useCache then
    let stored := p.cache.set now r.source r.keyOptions output map
    ⟨{ p with cache := stored.state }, (), stored.events⟩
  else ⟨p, (), []⟩

/-- The target text of a source. -/
def preprocess (p : Pipeline) (now : Nat) (source : Text) (options : Options) :
    Outcome Pipeline Preprocessed :=
  let request := Request.preprocess source options.keepNames
  let found := p.lookup options.useCache request
  match found.value with
  | some e => ⟨found.state, ⟨e.output, true⟩, found.events⟩
  | none =>
    let text := targetText options.keepNames source
    let stored := found.state.store now options.useCache request text none
    ⟨stored.state, ⟨text, false⟩, found.events ++ stored.events⟩

/-- A position map in canonical form. One that is an object holds the source
    text. -/
def attachSource (source : Text) (map : Json) : Json :=
  (Backend.setField "sourcesContent" (.arr [.str source]) map.canonical).canonical

/-- What the backend gives for a source, or its failure. -/
def compile (backend : Backend) (source file : Text) (keepNames : Bool) :
    Except Failure Compiled :=
  let target := targetText keepNames source
  match backend target file with
  | .error r => .error (.ofRefusal ⟨file, target⟩ r)
  | .ok c => .ok { c with map := c.map.map (attachSource source) }

/-- The output of the backend for a source. -/
def transpile (p : Pipeline) (now : Nat) (source file : Text) (options : Options) :
    Outcome Pipeline (Except Failure Transpiled) :=
  if Text.isBlankText source then ⟨p, .ok ⟨[], none, false⟩, []⟩
  else
    let request := Request.transpile source file options.keepNames
    let found := p.lookup options.useCache request
    match found.value with
    | some e => ⟨found.state, .ok ⟨e.output, e.positionMap, true⟩, found.events⟩
    | none =>
      let p := { found.state with calls := found.state.calls + 1 }
      match compile p.backend source file options.keepNames with
      | .error failure => ⟨p, .error failure, found.events ++ [.backendFailed]⟩
      | .ok c =>
        let stored := p.store now options.useCache request c.code c.map
        ⟨stored.state, .ok ⟨c.code, c.map, false⟩, found.events ++ stored.events⟩

end Pipeline
end BanglaSource
