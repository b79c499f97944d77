import Lamina.Proofs.Engine.Run
import Lamina.Proofs.Loader
import Lamina.Proofs.Registry
import Lamina.Proofs.Scripts

/-! Without a cache every request is built anew, but what it answers is the first artifact that the
run built under the same identifier. Its source map and its files are current exactly when that
first artifact had them already. -/

namespace Lamina

namespace Engine

variable {e : Engine} {d : Disk} {key path : String} {context : Context} {defined : List Artifact}

theorem compile_uncached (h : e.cache = .none)
    (hk : e.fingerprint d path context = .ok key) :
    e.compile d path context = e.rebuild d key path context := by
  have hload : e.cache.load d e.registry key = (none, e.cache, e.registry) := by
    rw [h]
    rfl
  exact compile_of_miss hk hload

theorem stable_uncached : Stable fun e _ => e.cache = .none where
  frame h _ _ _ := h
  read h _ := by rw [h]; rfl
  write h _ := by rw [h]; rfl
  delete h _ := by rw [h]; rfl

/-- The artifact of the templates as they are, under a key. -/
def built? (e : Engine) (d : Disk) (key path : String) (context : Context) : Option Artifact :=
  ((e.builder (e.library.loader d)).compile context path).1.toOption.map (Program.assemble key path)

/-- A rebuild brings its build to the registry, and answers what the registry has for it. -/
theorem rebuild_offers (hr : e.registry.Keeps defined) (d : Disk) (key path : String)
    (context : Context) :
    (e.rebuild d key path context).2.1.registry.Keeps
        (defined ++ (e.built? d key path context).toList) ∧
      ∀ a, (e.rebuild d key path context).1 = .ok a →
        ∃ built, e.built? d key path context = some built ∧ a = (e.registry.define built).1 := by
  have hrebuilt := e.rebuilt d key path context
  generalize e.rebuild d key path context = r at hrebuilt ⊢
  cases hrebuilt with
  | error reads hc =>
    rw [built?, hc]
    exact ⟨(List.append_nil defined).symm ▸ hr, fun a ha => by cases ha⟩
  | @defined chunk known registry _ _ _ loaded _ _ hc hdefine =>
    have hkeeps := hr.define (Program.assemble key path chunk)
    rw [hdefine] at hkeeps
    rw [built?, hc]
    cases loaded with
    | ok =>
      refine ⟨hkeeps, fun a ha => ⟨_, rfl, ?_⟩⟩
      rw [hdefine]
      exact (Except.ok.inj ha).symm
    | error => exact ⟨hkeeps.forget key, fun a ha => by cases ha⟩

/-- If the artifact that the registry has for a build loads, then a rebuild answers it. -/
theorem rebuild_of_load {chunk : Chunk} {known : Artifact} {registry : Registry}
    {written : Except CacheFault Unit} {cache : Cache} {after : Disk} {scripts : Scripts}
    (hc : ((e.builder (e.library.loader d)).compile context path).1 = .ok chunk)
    (hdefine : e.registry.define (Program.assemble key path chunk) = (known, registry))
    (hwrite : e.cache.write d (.ofArtifact d known) = (written, cache, after))
    (hload : known.load e.scripts = (.ok (), scripts)) : ∃ reads, e.rebuild d key path context =
      (.ok known, { e with reads, registry, cache, scripts }, after) := by
  have hrebuilt := e.rebuilt d key path context
  generalize e.rebuild d key path context = r at hrebuilt ⊢
  cases hrebuilt with
  | error _ hc' => cases hc'.symm.trans hc
  | defined reads hc' hdefine' hwrite' hload' =>
    cases hc'.symm.trans hc
    cases hdefine'.symm.trans hdefine
    cases hwrite'.symm.trans hwrite
    cases hload'.symm.trans hload
    exact ⟨reads, rfl⟩

end Engine

theorem Request.toOption_fresh {r : Request} {key : String}
    (hk : r.world.engine.fingerprint r.world.disk r.path r.context = .ok key) :
    r.fresh.toOption = r.world.engine.built? r.world.disk key r.path r.context := by
  simp only [fresh, hk, chunk, Engine.built?]
  cases ((r.world.engine.builder (r.world.engine.library.loader r.world.disk)).compile r.context
    r.path).1 <;> rfl

namespace World

variable {w : World} {defined : List Artifact}

theorem step_keeps (hc : w.engine.cache = .none) (hr : w.engine.registry.Keeps defined)
    (op : Operation) : (w.step op).engine.cache = .none ∧
      (w.step op).engine.registry.Keeps (defined ++ w.builds [op]) := by
  cases op with
  | edit library disk => exact ⟨hc, (List.append_nil defined).symm ▸ hr⟩
  | reset path context =>
    have hsame : defined ++ w.builds [.reset path context] = defined := List.append_nil _
    rw [hsame]
    refine ⟨Engine.stable_uncached.reset (d := w.disk) hc path context, ?_⟩
    simp only [step, Engine.reset]
    cases w.engine.fingerprint w.disk path context with
    | error failure => exact hr
    | ok key => exact hr.forget key
  | compile path context =>
    refine ⟨Engine.stable_uncached.compile (d := w.disk) hc path context, ?_⟩
    have hbuilds : w.builds [.compile path context] =
        (Request.fresh ⟨w, path, context⟩).toOption.toList := by
      cases h : Request.fresh ⟨w, path, context⟩ <;> simp [builds, requests, h, Except.toOption]
    rw [hbuilds]
    cases hk : w.engine.fingerprint w.disk path context with
    | error failure =>
      have hfresh : Request.fresh ⟨w, path, context⟩ = .error failure := by
        simp only [Request.fresh, hk]
        rfl
      simp only [step, Engine.compile_of_error hk, hfresh]
      exact (List.append_nil defined).symm ▸ hr
    | ok key =>
      simp only [step, Engine.compile_uncached hc hk]
      rw [Request.toOption_fresh (r := ⟨w, path, context⟩) hk]
      exact (Engine.rebuild_offers hr w.disk key path context).1

theorem run_keeps (hc : w.engine.cache = .none) (hr : w.engine.registry.Keeps defined)
    (ops : List Operation) : (w.run ops).engine.cache = .none ∧
      (w.run ops).engine.registry.Keeps (defined ++ w.builds ops) := by
  induction ops generalizing w defined with
  | nil => exact ⟨hc, (List.append_nil defined).symm ▸ hr⟩
  | cons op ops ih =>
    obtain ⟨hcache, hregistry⟩ := step_keeps hc hr op
    rw [builds_cons, ← List.append_assoc]
    exact ih hcache hregistry

def request (w : World) (ops : List Operation) (path : String) (context : Context) : Request :=
  ⟨w.run ops, path, context⟩

end World

/-- Artifacts with the same source map and the same files. -/
def Artifact.SameMetadata (a b : Artifact) : Prop :=
  a.sourceMap = b.sourceMap ∧ a.dependencies = b.dependencies

namespace Request

/-- An answer, if there is one, has the source map and the files of the templates as they are. -/
def Current (r : Request) : Prop :=
  ∀ answer, r.answer = .ok answer → ∃ built, r.fresh = .ok built ∧ answer.SameMetadata built

theorem answer_uncached {r : Request} {defined : List Artifact}
    (hc : r.world.engine.cache = .none) (hr : r.world.engine.registry.Keeps defined)
    {answer : Artifact} (h : r.answer = .ok answer) :
    ∃ built, r.fresh = .ok built ∧
      answer = (defined.find? (·.id == built.id)).getD built := by
  cases hk : r.world.engine.fingerprint r.world.disk r.path r.context with
  | error failure =>
    simp only [Request.answer, Engine.compile_of_error hk] at h
    cases h
  | ok key =>
    simp only [Request.answer, Engine.compile_uncached hc hk] at h
    obtain ⟨built, hbuilt, rfl⟩ :=
      (Engine.rebuild_offers hr r.world.disk key r.path r.context).2 answer h
    refine ⟨built, eq_ok_of_toOption ((toOption_fresh hk).trans hbuilt), ?_⟩
    rw [Registry.define_fst, hr]

theorem answer_of_load {w : World} (hc : w.engine.cache = .none) {path : String}
    {context : Context} {built known : Artifact} (hb : fresh ⟨w, path, context⟩ = .ok built)
    (hknown : (w.engine.registry.define built).1 = known)
    (hload : (known.load w.engine.scripts).1 = .ok ()) :
    answer ⟨w, path, context⟩ = .ok known ∧
      (w.step (.compile path context)).engine.scripts.Has known.id := by
  obtain ⟨key, chunk, hk, hchunk, rfl⟩ := fresh_eq_ok hb
  obtain ⟨reads, hrebuild⟩ :=
    Engine.rebuild_of_load hchunk (Prod.ext hknown rfl) rfl (Prod.ext hload rfl)
  simp only [answer, World.step, Engine.compile_uncached hc hk, hrebuild]
  exact ⟨trivial, Artifact.has_of_load hload⟩

/-- An engine without a cache that has built one artifact, and loaded it, answers with it wherever
its identifier comes up again. -/
theorem answer_again {w : World} (hcache : w.engine.cache = .none)
    (hregistry : w.engine.registry = .empty) {path path' : String} {context context' : Context}
    {first built : Artifact} (hfirst : fresh ⟨w, path, context⟩ = .ok first)
    (hload : (first.load w.engine.scripts).1 = .ok ()) {ops : List Operation}
    (hops : w.builds ops = [first])
    (hscripts : (w.run ops).engine.scripts = (w.step (.compile path context)).engine.scripts)
    (hb : (w.request ops path' context').fresh = .ok built) (hid : built.id = first.id) :
    (w.request ops path' context').answer = .ok first := by
  obtain ⟨hc, hr⟩ := World.run_keeps hcache (hregistry ▸ Registry.keeps_empty) ops
  have hdefine : (w.engine.registry.define first).1 = first := by
    rw [hregistry, Registry.define_fst]
    rfl
  have hfound : [first].find? (·.id == built.id) = some first :=
    List.find?_cons_of_pos (beq_iff_eq.mpr hid.symm)
  have hhas : (w.run ops).engine.scripts.Has first.id :=
    hscripts ▸ (answer_of_load hcache hfirst hdefine hload).2
  have hknown : ((w.run ops).engine.registry.define built).1 = first := by
    rw [Registry.define_fst, hr, List.nil_append, hops, hfound, Option.getD_some]
  exact (answer_of_load hc hb hknown (congrArg Prod.fst (Artifact.load_of_has hhas))).1

/-- Without a cache a request is answered by the first artifact of the run that has the identifier
of its own build. So its source map and its files are those of its own build exactly when no
earlier build under that identifier had others. -/
theorem current_iff_first_build (w : World) (hcache : w.engine.cache = .none)
    (hregistry : w.engine.registry = .empty) (ops : List Operation) (path : String)
    (context : Context) :
    (∀ answer, (w.request ops path context).answer = .ok answer →
      ∃ built, (w.request ops path context).fresh = .ok built ∧
        answer = ((w.builds ops).find? (·.id == built.id)).getD built) ∧
    ((w.request ops path context).Current ↔
      ∀ answer built first, (w.request ops path context).answer = .ok answer →
        (w.request ops path context).fresh = .ok built →
        (w.builds ops).find? (·.id == built.id) = some first → first.SameMetadata built) := by
  have hempty : w.engine.registry.Keeps [] := hregistry ▸ Registry.keeps_empty
  obtain ⟨hc, hr⟩ := World.run_keeps hcache hempty ops
  have hanswer := fun answer (h : (w.request ops path context).answer = .ok answer) =>
    answer_uncached (r := w.request ops path context) hc hr h
  refine ⟨hanswer, fun hcurrent answer built first ha hb hf => ?_, fun hfirst answer ha => ?_⟩
  · obtain ⟨built', hb', heq⟩ := hanswer answer ha
    obtain ⟨built'', hb'', hsame⟩ := hcurrent answer ha
    obtain rfl := Except.ok.inj (hb'.symm.trans hb)
    obtain rfl := Except.ok.inj (hb''.symm.trans hb)
    rw [List.nil_append, hf] at heq
    rw [heq] at hsame
    exact hsame
  · obtain ⟨built, hb, heq⟩ := hanswer answer ha
    refine ⟨built, hb, ?_⟩
    rw [List.nil_append] at heq
    cases hf : (w.builds ops).find? (·.id == built.id) with
    | none =>
      rw [hf] at heq
      exact heq ▸ ⟨rfl, rfl⟩
    | some first =>
      rw [hf] at heq
      exact heq ▸ hfirst answer built first ha hb hf

/-- A page with a letter on it, after a comment. -/
def letterAfter (comment : String) : Templates := .single "default:page" (comment ++ "x")

/-- What becomes of the page if the letter has the given origin. -/
def letterChunk (o : Origin) : Chunk :=
  ⟨"__write(\"x\")\n", [o.path], ⟨[o.path], .single 1 o⟩⟩

def letterPage (line : Nat) : Chunk := letterChunk (.of "default/page.stm" line .html "raw")

/-- What a build of the page comes to, if it is asked for by the path. -/
def letterBuilt (path : String) (line : Nat) : Artifact :=
  Program.assemble Program.letterKey path (letterPage line)

set_option maxRecDepth 100000 in
theorem letter_first :
    ((Builder.default (letterAfter "").loader).compile .empty "page").1 = .ok (letterPage 1) :=
  eq_ok_of_toOption (by decide +kernel)

set_option maxRecDepth 100000 in
theorem letter_moved :
    ((Builder.default (letterAfter "\x7b\x7b--\n--\x7d\x7d").loader).compile .empty "page").1 =
      .ok (letterPage 2) :=
  eq_ok_of_toOption (by decide +kernel)

theorem chunk_of_memory {w : World} {builder : Loader → Builder} {t : Templates}
    (hb : w.engine.builder = builder) (hl : w.engine.library = .memory t) (path : String)
    (context : Context) :
    Request.chunk ⟨w, path, context⟩ = ((builder t.loader).compile context path).1 := by
  rw [chunk, hb, hl]
  rfl

theorem letter_fresh {w : World} {comment path : String} {line : Nat}
    (hb : w.engine.builder = Builder.default)
    (hl : w.engine.library = .memory (letterAfter comment))
    (hpath : path = "page" ∨ path = "default:page")
    (hc : ((Builder.default (letterAfter comment).loader).compile .empty path).1 =
      .ok (letterPage line)) : fresh ⟨w, path, .empty⟩ = .ok (letterBuilt path line) := by
  have hlocate : (letterAfter comment).loader.locate path =
      .ok ⟨"default/page.stm", ⟨"default", "page"⟩⟩ := by
    rw [Templates.loader_locate]
    rcases hpath with rfl | rfl
    · exact eq_ok_of_toOption rfl
    · exact eq_ok_of_toOption rfl
  have hk : w.engine.fingerprint w.disk path .empty = .ok Program.letterKey := by
    simp only [Engine.fingerprint, hl, Library.loader, hlocate]
    rfl
  exact fresh_of_chunk hk ((chunk_of_memory hb hl path .empty).trans hc)

/-- An engine without a cache over the page, before anything is compiled. -/
def letterWorld : World :=
  ⟨⟨Builder.default, .memory (letterAfter ""), .empty {}, .none, .empty, []⟩, .empty ""⟩

theorem letterWorld_fresh :
    fresh ⟨letterWorld, "page", .empty⟩ = .ok (letterBuilt "page" 1) :=
  letter_fresh rfl rfl (.inl rfl) letter_first

/-- The page is compiled once and then moves down a line. -/
def letterMoves : List Operation :=
  [.compile "page" .empty, .edit (.memory (letterAfter "\x7b\x7b--\n--\x7d\x7d")) (.empty "")]

theorem scripts_run_edit (w : World) (path : String) (context : Context) (library : Library)
    (disk : Disk) : (w.run [.compile path context, .edit library disk]).engine.scripts =
      (w.step (.compile path context)).engine.scripts :=
  rfl

theorem builds_letterMoves : letterWorld.builds letterMoves = [letterBuilt "page" 1] := by
  simp only [World.builds, World.requests, letterMoves, List.filterMap, letterWorld_fresh]
  rfl

/-- Both builds of the page have the same source and so the same identifier, but the second one
maps it to another line; the answer has the lines of the first one. -/
theorem current_iff_first_build_moved :
    letterWorld.engine.cache = .none ∧ letterWorld.engine.registry = .empty ∧
      (∃ answer, (letterWorld.request letterMoves "page" .empty).answer = .ok answer) ∧
      ¬ (letterWorld.request letterMoves "page" .empty).Current := by
  have hb : (letterWorld.request letterMoves "page" .empty).fresh = .ok (letterBuilt "page" 2) :=
    letter_fresh (World.run_builder letterWorld letterMoves) rfl (.inl rfl) letter_moved
  have ha := answer_again rfl rfl letterWorld_fresh (Artifact.load_letter rfl rfl)
    builds_letterMoves (scripts_run_edit ..) hb rfl
  refine ⟨rfl, rfl, ⟨_, ha⟩, fun hcurrent => ?_⟩
  have hfirst : (letterWorld.builds letterMoves).find? (·.id == (letterBuilt "page" 2).id) =
      some (letterBuilt "page" 1) := by
    have hid : (letterBuilt "page" 1).id = (letterBuilt "page" 2).id := rfl
    rw [builds_letterMoves]
    exact List.find?_cons_of_pos (beq_iff_eq.mpr hid)
  have hsame := (current_iff_first_build letterWorld rfl rfl letterMoves "page" .empty).2.mp
    hcurrent _ _ _ ha hb hfirst
  exact absurd hsame.1 (by decide)

end Request

end Lamina
