import Lamina.Chunk.Emit
import Lamina.Context.Substitution
import Lamina.Directive.Provider
import Lamina.Loader
import Lamina.Node.Parser
import Lamina.Pass.Finalize
import Lamina.Pass.Merge
import Lamina.Pass.Prepare

/-! Builds pages from templates. Loading a template reads it, parses it and resolves its
references, which load other templates in turn; references nest up to a limit and never in a
circle. A page is a loaded template after the passes over the whole. -/

namespace Lamina

structure Builder where
  loader : Loader
  processors : List Processor
  prepare : List Pass
  transform : List Pass
  finalize : List Pass
  renderers : Renderers
  maxDepth : Nat

/-- A built page and the files it was made from. -/
structure Page where
  root : Node
  paths : List String

def defaultMaxDepth : Nat := 32

def defaultPreserveTags : List String := ["pre", "textarea"]

namespace Builder

def bare (loader : Loader) : Builder := ⟨loader, [], [], [], [], .all, defaultMaxDepth⟩

def standard (loader : Loader) (directives : Directives) (preserve : List Scope → Bool)
    (strict : Bool) : Builder :=
  { bare loader with
    processors := [Processor.context]
    prepare := Pass.prepare
    transform := Pass.transform strict
    finalize := Pass.finalize directives preserve }

def default (loader : Loader) : Builder :=
  standard loader .builtin (Pass.preserveIn defaultPreserveTags) false

/-- One walk with the visitors of the given passes; without passes the tree stays as it is. -/
def run (passes : List Pass) (resolver : Resolver) (root : Node) : LoadM Node :=
  if passes.isEmpty then return root
  else (Walk.root (passes.map fun (pass : Pass) => pass resolver) root).run' {}

def source (b : Builder) (context : Context) (view : View) : LoadM String := do
  modify (·.noteRead view.identity)
  let text ← liftExcept (b.loader.read view)
  b.processors.foldlM (fun text p => liftExcept (p.run view context text)) text
where
  liftExcept {α : Type} (x : Except Failure α) : LoadM α :=
    match x with
    | .ok a => return a
    | .error failure => throw failure

def parse (b : Builder) (context : Context) (resolver : Resolver) (view : View) : LoadM Node := do
  let text ← b.source context view
  match Node.parse text view.filename with
  | .error failure => throw failure
  | .ok root =>
    let root ← run b.prepare resolver root
    run b.transform resolver root

/-- The view that `path` names; a failure to find it belongs to the reference. -/
def locate (b : Builder) (path : String) (reference : Option Origin) : LoadM View :=
  match b.loader.locate path, reference with
  | .ok view, _ => return view
  | .error failure, none => throw failure
  | .error failure, some o => throw (.merge (.unresolved path failure.text) o.path o.line)

/-- A failure of a reference, or of a view that was asked for directly. -/
def refuse {α : Type} (reference : Option Origin) (view : View) (fault : MergeFault) : LoadM α :=
  match reference with
  | some o => throw (.merge fault o.path o.line)
  | none => throw (.merge fault view.filename 1)

/-- A fragment is loaded once per session and taken from there afterwards. -/
def fragmentVia (b : Builder) (load : String → Origin → LoadM Node) (path : String) (o : Origin) :
    LoadM Node := do
  let identity := (b.loader.locate path).toOption.map View.identity
  match identity.bind (← get).fragment? with
  | some fragment => return fragment
  | none =>
    let fragment ← load path o
    if let some identity := identity then modify (·.remember identity fragment)
    return fragment

def resolver (b : Builder) (load : String → Option Origin → LoadM Node) : Resolver :=
  let load path o := load path (some o)
  ⟨load, b.fragmentVia load⟩

/-- Loads the template that `path` names while the templates of `chain` are being resolved, with
`budget` more levels to go. -/
def loadAt (b : Builder) (context : Context) (budget : Nat) (chain : List String) (path : String)
    (reference : Option Origin) : LoadM Node := do
  let view ← b.locate path reference
  if chain.contains view.identity then
    refuse reference view (.cyclic (chain ++ [view.identity]))
  else
    match budget with
    | 0 => refuse reference view (.tooDeep b.maxDepth)
    | budget + 1 =>
      modify (·.consult view.filename)
      b.parse context (b.resolver (b.loadAt context budget (chain ++ [view.identity]))) view

def load (b : Builder) (context : Context) (path : String) (reference : Option Origin) :
    LoadM Node :=
  b.loadAt context b.maxDepth [] path reference

def buildM (b : Builder) (context : Context) (path : String) : LoadM Page := do
  let root ← b.load context path none
  let root ← run b.finalize (b.resolver (b.load context)) root
  return ⟨root, (← get).paths⟩

def build (b : Builder) (context : Context) (path : String) : Except Failure Page × Session :=
  (b.buildM context path).run {}

def compile (b : Builder) (context : Context) (path : String) : Except Failure Chunk × Session :=
  let (page, session) := b.build context path
  (page.bind fun page => page.root.compile b.renderers page.paths, session)

end Builder

end Lamina
