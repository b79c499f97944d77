import Lamina.Engine
import Lamina.Proofs.Except
import Mathlib.Data.List.Basic

/-! Runs of an engine: compilations and resets between edits of the templates. Each compilation is
a request, which the engine answers from what it keeps or by a build of its own. -/

namespace Lamina

/-- What happens to an engine and to the templates that it reads. -/
inductive Operation
  | compile (path : String) (context : Context)
  | reset (path : String) (context : Context)
  /-- The templates and the files become others. -/
  | edit (library : Library) (disk : Disk)

structure World where
  engine : Engine
  disk : Disk

namespace World

def step (w : World) : Operation → World
  | .compile path context =>
    let (_, engine, disk) := w.engine.compile w.disk path context
    ⟨engine, disk⟩
  | .reset path context =>
    let (_, engine, disk) := w.engine.reset w.disk path context
    ⟨engine, disk⟩
  | .edit library disk => ⟨{ w.engine with library }, disk⟩

def run (w : World) (ops : List Operation) : World := ops.foldl step w

end World

/-- A compilation, together with the world it happens in. -/
structure Request where
  world : World
  path : String
  context : Context

namespace Request

def answer (r : Request) : Except Failure Artifact :=
  (r.world.engine.compile r.world.disk r.path r.context).1

/-- The chunk of the templates as they are. -/
def chunk (r : Request) : Except Failure Chunk :=
  ((r.world.engine.builder (r.world.engine.library.loader r.world.disk)).compile r.context
    r.path).1

/-- The artifact of the templates as they are. -/
def fresh (r : Request) : Except Failure Artifact := do
  let key ← r.world.engine.fingerprint r.world.disk r.path r.context
  let chunk ← r.chunk
  return Program.assemble key r.path chunk

end Request

namespace World

def requests (w : World) : List Operation → List Request
  | [] => []
  | .compile path context :: ops =>
    ⟨w, path, context⟩ :: (w.step (.compile path context)).requests ops
  | op :: ops => (w.step op).requests ops

theorem requests_cons (w : World) (op : Operation) (ops : List Operation) :
    w.requests (op :: ops) = w.requests [op] ++ (w.step op).requests ops := by
  cases op <;> rfl

/-- What the templates gave at the requests of a run, where they could be built. -/
def builds (w : World) (ops : List Operation) : List Artifact :=
  (w.requests ops).filterMap (·.fresh.toOption)

theorem builds_cons (w : World) (op : Operation) (ops : List Operation) :
    w.builds (op :: ops) = w.builds [op] ++ (w.step op).builds ops := by
  rw [builds, requests_cons, List.filterMap_append]
  rfl

end World

namespace Request

variable {r : Request} {key : String} {chunk : Chunk}

theorem fresh_of_chunk (hk : r.world.engine.fingerprint r.world.disk r.path r.context = .ok key)
    (hc : r.chunk = .ok chunk) : r.fresh = .ok (Program.assemble key r.path chunk) := by
  simp only [fresh, hk, hc]
  rfl

theorem fresh_eq_ok {built : Artifact} (h : r.fresh = .ok built) :
    ∃ key chunk, r.world.engine.fingerprint r.world.disk r.path r.context = .ok key ∧
      r.chunk = .ok chunk ∧ built = Program.assemble key r.path chunk := by
  obtain ⟨key, hk, h⟩ := bind_eq_ok.mp h
  obtain ⟨chunk, hc, h⟩ := bind_eq_ok.mp h
  exact ⟨key, chunk, hk, hc, (Except.ok.inj h).symm⟩

end Request

theorem Cache.load_cache (c : Cache) (d : Disk) (r : Registry) (key : String) :
    (c.load d r key).2.1 = (c.read d key).2 := by
  unfold load
  rcases c.read d key with ⟨fault | _ | entry, c'⟩
  · rfl
  · rfl
  · dsimp only
    split <;> rfl

namespace Engine

variable {e : Engine} {d : Disk} {key path : String} {context : Context}

/-- How a rebuild ends: an artifact that does not load is not kept. -/
def settle (e : Engine) (d : Disk) (key : String) (known : Artifact) :
    Except Failure Unit → Except Failure Artifact × Engine × Disk
  | .ok () => (.ok known, e, d)
  | .error failure => (.error failure, e.discard d key)

/-- What a rebuild can come to. -/
inductive Rebuilt (e : Engine) (d : Disk) (key path : String) (context : Context) :
    Except Failure Artifact × Engine × Disk → Prop
  | error {failure : Failure} (reads : List String)
      (built : ((e.builder (e.library.loader d)).compile context path).1 = .error failure) :
      Rebuilt e d key path context (.error (failure.whileCompiling path), { e with reads }, d)
  | defined {chunk : Chunk} {known : Artifact} {registry : Registry}
      {written : Except CacheFault Unit} {cache : Cache} {after : Disk}
      {loaded : Except Failure Unit} {scripts : Scripts} (reads : List String)
      (built : ((e.builder (e.library.loader d)).compile context path).1 = .ok chunk)
      (define : e.registry.define (Program.assemble key path chunk) = (known, registry))
      (write : e.cache.write d (.ofArtifact d known) = (written, cache, after))
      (load : known.load e.scripts = (loaded, scripts)) :
      Rebuilt e d key path context
        (settle { e with reads, registry, cache, scripts } after key known loaded)

theorem rebuilt (e : Engine) (d : Disk) (key path : String) (context : Context) :
    Rebuilt e d key path context (e.rebuild d key path context) := by
  rcases hc : (e.builder (e.library.loader d)).compile context path with ⟨failure | chunk, session⟩
  · simp only [rebuild, hc]
    exact .error _ (by rw [hc])
  · rcases hd : e.registry.define (Program.assemble key path chunk) with ⟨known, registry⟩
    rcases hw : e.cache.write d (.ofArtifact d known) with ⟨written, cache, after⟩
    rcases hl : known.load e.scripts with ⟨loaded, scripts⟩
    have hsettle : e.rebuild d key path context = settle { e with
        reads := e.reads ++ session.reads, registry, cache, scripts } after key known loaded := by
      simp only [rebuild, hc, hd, hw, hl]
      cases loaded <;> rfl
    rw [hsettle]
    exact .defined _ (by rw [hc]) hd hw hl

theorem compile_of_error {failure : Failure} (hk : e.fingerprint d path context = .error failure) :
    e.compile d path context = (.error failure, e, d) := by
  simp only [compile, hk]

section

variable {cache : Cache} {registry : Registry} (hk : e.fingerprint d path context = .ok key)

include hk

theorem compile_of_miss (hload : e.cache.load d e.registry key = (none, cache, registry)) :
    e.compile d path context = Engine.rebuild { e with cache, registry } d key path context := by
  simp only [compile, hk, hload]

variable {known : Artifact} {scripts : Scripts}

theorem compile_of_hit (hload : e.cache.load d e.registry key = (some known, cache, registry))
    (hs : known.load e.scripts = (.ok (), scripts)) :
    e.compile d path context = (.ok known, { e with cache, registry, scripts }, d) := by
  simp only [compile, hk, hload, hs]

theorem compile_of_unloadable {failure : Failure}
    (hload : e.cache.load d e.registry key = (some known, cache, registry))
    (hs : known.load e.scripts = (.error failure, scripts)) {e' : Engine} {d' : Disk}
    (hd : Engine.discard { e with cache, registry, scripts } d key = (e', d')) :
    e.compile d path context = e'.rebuild d' key path context := by
  simp only [compile, hk, hload, hs, hd]

end

def SameTemplates (e e' : Engine) : Prop := e'.builder = e.builder ∧ e'.library = e.library

/-- A property of an engine and its disk that stays through a compilation: it does not depend on
what was read, defined or loaded, and the cache may be used. -/
structure Stable (P : Engine → Disk → Prop) : Prop where
  frame : ∀ {e d}, P e d → ∀ reads registry scripts, P { e with reads, registry, scripts } d
  read : ∀ {e d}, P e d → ∀ key, P { e with cache := (e.cache.read d key).2 } d
  write : ∀ {e d}, P e d → ∀ entry,
    P { e with cache := (e.cache.write d entry).2.1 } (e.cache.write d entry).2.2
  delete : ∀ {e d}, P e d → ∀ key,
    P { e with cache := (e.cache.delete d key).2.1 } (e.cache.delete d key).2.2

namespace Stable

variable {P : Engine → Disk → Prop} (hP : Stable P) (h : P e d)

include hP h

theorem discard (key : String) : P (e.discard d key).1 (e.discard d key).2 :=
  hP.frame (hP.delete h key) e.reads (e.registry.forget key) e.scripts

theorem rebuild (key path : String) (context : Context) :
    P (e.rebuild d key path context).2.1 (e.rebuild d key path context).2.2 := by
  have hrebuilt := e.rebuilt d key path context
  generalize e.rebuild d key path context = r at hrebuilt ⊢
  cases hrebuilt with
  | error reads => exact hP.frame h reads e.registry e.scripts
  | @defined _ known registry _ _ _ loaded scripts reads _ _ hwrite =>
    have hwritten := hP.write h (.ofArtifact d known)
    rw [hwrite] at hwritten
    have hframe := hP.frame hwritten reads registry scripts
    cases loaded with
    | ok => exact hframe
    | error => exact hP.discard hframe key

theorem compile (path : String) (context : Context) :
    P (e.compile d path context).2.1 (e.compile d path context).2.2 := by
  cases hk : e.fingerprint d path context with
  | error failure =>
    rw [compile_of_error hk]
    exact h
  | ok key =>
    rcases hload : e.cache.load d e.registry key with ⟨found, cache, registry⟩
    obtain rfl : (e.cache.read d key).2 = cache := by rw [← Cache.load_cache, hload]
    have hread := hP.frame (hP.read h key) e.reads registry
    cases found with
    | none =>
      rw [compile_of_miss hk hload]
      exact hP.rebuild (hread e.scripts) key path context
    | some known =>
      rcases hs : known.load e.scripts with ⟨failure | _, scripts⟩
      · rw [compile_of_unloadable hk hload hs rfl]
        exact hP.rebuild (hP.discard (hread scripts) key) key path context
      · rw [compile_of_hit hk hload hs]
        exact hread scripts

theorem reset (path : String) (context : Context) :
    P (e.reset d path context).2.1 (e.reset d path context).2.2 := by
  simp only [Engine.reset]
  cases e.fingerprint d path context with
  | error failure => exact h
  | ok key => exact hP.discard h key

end Stable

theorem stable_sameTemplates (e : Engine) : Stable fun e' _ => e.SameTemplates e' :=
  ⟨fun h _ _ _ => h, fun h _ => h, fun h _ => h, fun h _ => h⟩

theorem compile_sameTemplates (e : Engine) (d : Disk) (path : String) (context : Context) :
    e.SameTemplates (e.compile d path context).2.1 :=
  e.stable_sameTemplates.compile ⟨rfl, rfl⟩ path context

theorem reset_sameTemplates (e : Engine) (d : Disk) (path : String) (context : Context) :
    e.SameTemplates (e.reset d path context).2.1 :=
  e.stable_sameTemplates.reset (d := d) ⟨rfl, rfl⟩ path context

end Engine

theorem World.run_builder (w : World) (ops : List Operation) :
    (w.run ops).engine.builder = w.engine.builder := by
  induction ops generalizing w with
  | nil => rfl
  | cons op ops ih =>
    refine (ih (w.step op)).trans ?_
    cases op with
    | compile path context => exact (w.engine.compile_sameTemplates w.disk path context).1
    | reset path context => exact (w.engine.reset_sameTemplates w.disk path context).1
    | edit library disk => rfl

end Lamina
