import Lamina.Loader.Directory
import Lamina.Program
import Lamina.Settings

/-! Engines compile templates to artifacts and keep them: in the cache across engines, and in the
registry for as long as the engine lives. -/

namespace Lamina

/-- What an engine has beyond its settings. -/
structure Extensions where
  /-- Providers that come before those of the settings. -/
  providers : List Provider := []
  /-- Processors that come after those of the settings. -/
  processors : List Processor := []
  prepare : List Pass := []
  transform : List Pass := []
  finalize : List Pass := []
  /-- Where line breaks are kept, in place of the tags of the settings. -/
  preserve? : Option (List Scope → Bool) := none
  /-- A cache in place of that of the settings. -/
  cache? : Option Cache := none
  services : Script.Services := {}

structure Engine where
  /-- The builder over the templates that a loader reaches. -/
  builder : Loader → Builder
  library : Library
  scripts : Scripts
  cache : Cache
  registry : Registry := .empty
  reads : List String := []

namespace Settings

def processorsNamed : List String → Except ConfigFault (List Processor)
  | [] => .ok []
  | name :: rest =>
    match Processor.named? name with
    | some processor => (processorsNamed rest).map (processor :: ·)
    | none => .error (.unknownProcessor name)

def builder (s : Settings) (x : Extensions) : Except Failure (Loader → Builder) := do
  s.check.mapError .config
  let directives ← Directives.ofNames s.directives
  let processors ← (processorsNamed s.processors).mapError .config
  let preserve := x.preserve?.getD (Pass.preserveIn s.preserveTags)
  return fun loader =>
    let b := Builder.standard loader ⟨x.providers ++ directives.providers⟩ preserve s.strictBlocks
    { b with
      processors := processors ++ x.processors
      prepare := b.prepare ++ x.prepare
      transform := b.transform ++ x.transform
      finalize := b.finalize ++ x.finalize
      maxDepth := s.maxDepth }

def engine (s : Settings) (library : Library) (x : Extensions) : Except Failure Engine :=
  (s.builder x).map fun builder =>
    { builder, library, scripts := .empty x.services, cache := x.cache?.getD s.cache.cache }

end Settings

namespace Engine

def list (e : Engine) (d : Disk) : Except Failure (List String) := (e.library.loader d).list

def fingerprint (e : Engine) (d : Disk) (path : String) (context : Context) :
    Except Failure String :=
  match (e.library.loader d).locate path with
  | .ok view => .ok (Lamina.fingerprint view.reference.space view.reference.name context.id)
  | .error failure => .error (failure.whileCompiling path)

def discard (e : Engine) (d : Disk) (key : String) : Engine × Disk :=
  let (_, cache, d) := e.cache.delete d key
  ({ e with cache, registry := e.registry.forget key }, d)

/-- Builds a template and keeps the result, unless its script does not load. -/
def rebuild (e : Engine) (d : Disk) (key path : String) (context : Context) :
    Except Failure Artifact × Engine × Disk :=
  let (built, session) := (e.builder (e.library.loader d)).compile context path
  let e := { e with reads := e.reads ++ session.reads }
  match built with
  | .error failure => (.error (failure.whileCompiling path), e, d)
  | .ok chunk =>
    let (artifact, registry) := e.registry.define (Program.assemble key path chunk)
    let (_, cache, d) := e.cache.write d (.ofArtifact d artifact)
    let (loaded, scripts) := artifact.load e.scripts
    let e := { e with registry, cache, scripts }
    match loaded with
    | .ok () => (.ok artifact, e, d)
    | .error failure =>
      let (e, d) := e.discard d key
      (.error failure, e, d)

/-- The artifact of a template: the one in the cache if it is fresh and its script loads, else a
new one. -/
def compile (e : Engine) (d : Disk) (path : String) (context : Context) :
    Except Failure Artifact × Engine × Disk :=
  match e.fingerprint d path context with
  | .error failure => (.error failure, e, d)
  | .ok key =>
    let (found, cache, registry) := e.cache.load d e.registry key
    let e := { e with cache, registry }
    match found with
    | none => e.rebuild d key path context
    | some artifact =>
      let (loaded, scripts) := artifact.load e.scripts
      let e := { e with scripts }
      match loaded with
      | .ok () => (.ok artifact, e, d)
      | .error _ =>
        let (e, d) := e.discard d key
        e.rebuild d key path context

def render (e : Engine) (d : Disk) (path : String) (context : Context) (data : Json) :
    Except Failure String × Engine × Disk :=
  let (compiled, e, d) := e.compile d path context
  match compiled with
  | .error failure => (.error failure, e, d)
  | .ok artifact =>
    let (page, scripts) := artifact.render e.scripts data
    (page, { e with scripts }, d)

def reset (e : Engine) (d : Disk) (path : String) (context : Context) :
    Except Failure Unit × Engine × Disk :=
  match e.fingerprint d path context with
  | .error failure => (.error failure, e, d)
  | .ok key =>
    let (e, d) := e.discard d key
    (.ok (), e, d)

end Engine

end Lamina
