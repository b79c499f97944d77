import Lamina.Proofs.Cache
import Lamina.Proofs.Engine.Metadata

/-! What a view is named for. A template may be asked for under several spellings, and all of them
lead to one artifact; it carries the spelling of the request that brought it, whoever asks later.
This holds with any cache, and what a cache has for a request counts as brought by it. -/

namespace Lamina

theorem Registry.Keeps.find?_define {r : Registry} {defined : List Artifact} (h : r.Keeps defined)
    (a : Artifact) : (defined ++ [a]).find? (·.id == (r.define a).1.id) = some (r.define a).1 := by
  rw [Registry.define_fst]
  cases hget : r.get? a.id with
  | none =>
    have hnone : defined.find? (·.id == a.id) = none := (h a.id).symm.trans hget
    simp [hnone]
  | some known =>
    have hid : known.id = a.id := Registry.id_of_get? hget
    have hfound : defined.find? (·.id == a.id) = some known := (h a.id).symm.trans hget
    simp [hid, hfound]

namespace Engine

variable {e : Engine} {d : Disk} {key path : String} {context : Context} {defined : List Artifact}

def cached? (e : Engine) (d : Disk) (key : String) : Option Artifact :=
  match (e.cache.read d key).1 with
  | .ok (some en) => if en.isFresh d then some en.artifact else none
  | _ => none

/-- What a compilation brings to the registry, in this order: what the cache has, and a build
unless that can be used. The build comes after the cache has dropped its entry. -/
def offers (e : Engine) (d : Disk) (key path : String) (context : Context) : List Artifact :=
  match e.cached? d key with
  | none => (e.built? d key path context).toList
  | some a =>
    if ((e.registry.define a).1.load e.scripts).1.isOk then [a]
    else a :: (e.built? ((e.cache.read d key).2.delete d key).2.2 key path context).toList

theorem template_of_built? {a : Artifact} (h : e.built? d key path context = some a) :
    a.template = path := by
  obtain ⟨chunk, -, rfl⟩ := Option.map_eq_some_iff.mp h
  rfl

theorem rebuild_first (hr : e.registry.Keeps defined) (d : Disk) (key path : String)
    (context : Context) :
    (e.rebuild d key path context).2.1.registry.Keeps
        (defined ++ (e.built? d key path context).toList) ∧
      ∀ a, (e.rebuild d key path context).1 = .ok a →
        (defined ++ (e.built? d key path context).toList).find? (·.id == a.id) = some a := by
  obtain ⟨hkeeps, hanswer⟩ := rebuild_offers hr d key path context
  refine ⟨hkeeps, fun a ha => ?_⟩
  obtain ⟨built, hbuilt, rfl⟩ := hanswer a ha
  rw [hbuilt]
  exact hr.find?_define built

/-- A compilation brings to the registry what it offers, and answers the first artifact that has
come there under its identifier. -/
theorem compile_offers (hr : e.registry.Keeps defined)
    (hk : e.fingerprint d path context = .ok key) :
    (e.compile d path context).2.1.registry.Keeps (defined ++ e.offers d key path context) ∧
      ∀ a, (e.compile d path context).1 = .ok a →
        (defined ++ e.offers d key path context).find? (·.id == a.id) = some a := by
  rcases e.cache.load_cases d e.registry key with ⟨en, hen, hfresh, hload⟩ | ⟨hstale, hload⟩
  · have hcached : e.cached? d key = some en.artifact := by
      have hen : (e.cache.read d key).1 = .ok (some en) := hen
      simp only [cached?, hen, hfresh, if_true]
    have hfirst := hr.find?_define en.artifact
    have hkeeps := hr.define en.artifact
    rcases hs : (e.registry.define en.artifact).1.load e.scripts with ⟨failure | _, scripts⟩
    · have hoffers : e.offers d key path context = [en.artifact] ++
          (e.built? ((e.cache.read d key).2.delete d key).2.2 key path context).toList := by
        simp only [offers, hcached, hs]
        rfl
      rw [compile_of_unloadable hk hload hs rfl, hoffers, ← List.append_assoc]
      exact rebuild_first (e := (discard { e with
        cache := (e.cache.read d key).2, registry := (e.registry.define en.artifact).2, scripts } d
          key).1) (hkeeps.forget key) _ key path context
    · have hoffers : e.offers d key path context = [en.artifact] := by
        simp only [offers, hcached, hs]
        rfl
      rw [compile_of_hit hk hload hs, hoffers]
      refine ⟨hkeeps, fun a ha => ?_⟩
      cases ha
      exact hfirst
  · have hcached : e.cached? d key = none := by
      unfold cached?
      split
      · next en hen => rw [hstale en hen, if_neg Bool.false_ne_true]
      · rfl
    rw [compile_of_miss hk hload, offers, hcached]
    exact rebuild_first (e := { e with cache := (e.cache.read d key).2 }) hr d key path context

theorem offers_eq (e : Engine) (d : Disk) (key path : String) (context : Context) :
    ∃ own : List Artifact, e.offers d key path context = (e.cached? d key).toList ++ own ∧
      ∀ a ∈ own, a.template = path := by
  have hnamed (d : Disk) : ∀ a ∈ (e.built? d key path context).toList, a.template = path :=
    fun a ha => template_of_built? (Option.mem_toList.mp ha)
  unfold offers
  split
  · next hcached => exact ⟨_, by rw [hcached]; rfl, hnamed d⟩
  · next cached hcached =>
    rw [hcached]
    split
    · exact ⟨[], rfl, List.forall_mem_nil _⟩
    · exact ⟨_, rfl, hnamed _⟩

end Engine

namespace Request

def cached? (r : Request) : Option Artifact :=
  (r.world.engine.fingerprint r.world.disk r.path r.context).toOption.bind fun key =>
    r.world.engine.cached? r.world.disk key

/-- What a request brings to the registry. -/
def offers (r : Request) : List Artifact :=
  (r.world.engine.fingerprint r.world.disk r.path r.context).toOption.elim [] fun key =>
    r.world.engine.offers r.world.disk key r.path r.context

variable {r : Request} {a : Artifact} {defined : List Artifact}

theorem registry_offers (hr : r.world.engine.registry.Keeps defined) :
    (r.world.engine.compile r.world.disk r.path r.context).2.1.registry.Keeps
        (defined ++ r.offers) ∧
      ∀ a, r.answer = .ok a → (defined ++ r.offers).find? (·.id == a.id) = some a := by
  cases hk : r.world.engine.fingerprint r.world.disk r.path r.context with
  | error failure =>
    have hnone : r.offers = [] := by rw [offers, hk]; rfl
    rw [answer, Engine.compile_of_error hk, hnone, List.append_nil]
    exact ⟨hr, fun a ha => by cases ha⟩
  | ok key =>
    have hoffers : r.offers = r.world.engine.offers r.world.disk key r.path r.context := by
      rw [offers, hk]
      rfl
    rw [hoffers]
    exact Engine.compile_offers hr hk

theorem offers_eq (r : Request) : ∃ own : List Artifact, r.offers = r.cached?.toList ++ own ∧
    ∀ a ∈ own, a.template = r.path := by
  unfold offers cached?
  cases r.world.engine.fingerprint r.world.disk r.path r.context with
  | error failure => exact ⟨[], rfl, List.forall_mem_nil _⟩
  | ok key => exact r.world.engine.offers_eq r.world.disk key r.path r.context

end Request

namespace World

/-- What the requests of a run bring to the registry, in their order. -/
def offers (w : World) (ops : List Operation) : List Artifact :=
  (w.requests ops).flatMap Request.offers

theorem step_offers {w : World} {defined : List Artifact}
    (hr : w.engine.registry.Keeps defined) (op : Operation) :
    (w.step op).engine.registry.Keeps (defined ++ w.offers [op]) := by
  cases op with
  | compile path context =>
    have hoffers : w.offers [.compile path context] = Request.offers ⟨w, path, context⟩ :=
      List.append_nil _
    have hstep : (w.step (.compile path context)).engine =
        (w.engine.compile w.disk path context).2.1 := rfl
    rw [hoffers, hstep]
    exact (Request.registry_offers (r := ⟨w, path, context⟩) hr).1
  | reset path context =>
    have hsame : defined ++ w.offers [.reset path context] = defined := List.append_nil _
    rw [hsame]
    simp only [step, Engine.reset]
    cases w.engine.fingerprint w.disk path context with
    | error failure => exact hr
    | ok key => exact hr.forget key
  | edit library disk =>
    have hsame : defined ++ w.offers [.edit library disk] = defined := List.append_nil _
    rw [hsame]
    exact hr

theorem run_offers {w : World} {defined : List Artifact}
    (hr : w.engine.registry.Keeps defined) (ops : List Operation) :
    (w.run ops).engine.registry.Keeps (defined ++ w.offers ops) := by
  induction ops generalizing w defined with
  | nil => exact (List.append_nil defined).symm ▸ hr
  | cons op ops ih =>
    have hoffers : w.offers (op :: ops) = w.offers [op] ++ (w.step op).offers ops := by
      rw [offers, requests_cons, List.flatMap_append]
      rfl
    rw [hoffers, ← List.append_assoc]
    exact ih (step_offers hr op)

end World

namespace Request

/-- A view is named for the first request that brought it. With any cache, an engine answers with
the first artifact that its requests have brought to it under the identifier. So a view has the path
of the request for it exactly if what came first under its identifier, before the build for this
request, has that path; a failure to render it names the same template. -/
theorem view_names_first_request (w : World) (hregistry : w.engine.registry = .empty)
    (ops : List Operation) (path : String) (context : Context) :
    let r := w.request ops path context
    (∀ view, r.answer = .ok view →
      (w.offers ops ++ r.offers).find? (·.id == view.id) = some view ∧
      (view.template = path ↔ ∀ first,
        (w.offers ops ++ r.cached?.toList).find? (·.id == view.id) = some first →
          first.template = path) ∧
      ∀ scripts data failure, (view.render scripts data).1 = .error failure →
        ∃ message frames cause, failure = .render view.template message frames cause) ∧
    ∀ r' ∈ w.requests ops ++ [r], ∀ offered ∈ r'.offers,
      offered.template = r'.path ∨ r'.cached? = some offered := by
  intro r
  have hempty : w.engine.registry.Keeps [] := hregistry ▸ Registry.keeps_empty
  have hkeeps : r.world.engine.registry.Keeps (w.offers ops) := World.run_offers hempty ops
  refine ⟨fun view hview => ?_, fun r' _ offered hoffered => ?_⟩
  · have hfirst := (registry_offers hkeeps).2 view hview
    refine ⟨hfirst, ?_, fun scripts data failure hrender => ?_⟩
    · -- what is not found before the build is the build
      obtain ⟨own, hoffers, hown⟩ := r.offers_eq
      rw [hoffers, ← List.append_assoc, List.find?_append] at hfirst
      cases hbefore : (w.offers ops ++ r.cached?.toList).find? (·.id == view.id) with
      | none =>
        rw [hbefore] at hfirst
        have hnamed := hown view (List.mem_of_find?_eq_some hfirst)
        exact ⟨fun _ first h => absurd h.symm (Option.some_ne_none first), fun _ => hnamed⟩
      | some first =>
        rw [hbefore] at hfirst
        obtain rfl : first = view := Option.some.inj hfirst
        exact ⟨fun h _ hsome => Option.some.inj hsome ▸ h, fun h => h first rfl⟩
    · obtain ⟨fault, -, rfl⟩ := mapError_eq_error.mp hrender
      exact ⟨_, _, _, rfl⟩
  · obtain ⟨own, hoffers, hown⟩ := r'.offers_eq
    rw [hoffers] at hoffered
    rcases List.mem_append.mp hoffered with h | h
    · exact .inr (Option.mem_toList.mp h)
    · exact .inl (hown offered h)

theorem offers_uncached {r : Request} (hc : r.world.engine.cache = .none) {built : Artifact}
    (hb : r.fresh = .ok built) : r.offers = [built] := by
  obtain ⟨key, -, hk, -⟩ := fresh_eq_ok hb
  have hcached : r.world.engine.cached? r.world.disk key = none := by
    rw [Engine.cached?, hc]
    rfl
  rw [offers, hk, Except.toOption, Option.elim_some, Engine.offers, hcached]
  simp only [← toOption_fresh hk, hb]
  rfl

theorem eq_of_find?_pair {a b view : Artifact} (hid : b.id = a.id)
    (h : [a, b].find? (·.id == view.id) = some view) : view = a := by
  by_cases ha : a.id = view.id
  · simp [ha] at h
    exact h.symm
  · simp [ha, hid] at h

set_option maxRecDepth 100000 in
theorem letter_spelled : ((Builder.default (letterAfter "").loader).compile .empty
    "default:page").1 = .ok (letterPage 1) :=
  eq_ok_of_toOption (by decide +kernel)

theorem letter_offers {w : World} (hb : w.engine.builder = Builder.default)
    (hl : w.engine.library = .memory (letterAfter "")) (hc : w.engine.cache = .none)
    (hr : w.engine.registry = .empty) :
    w.offers [.compile "page" .empty] = [letterBuilt "page" 1] ∧
      fresh (w.request [.compile "page" .empty] "default:page" .empty) =
        .ok (letterBuilt "default:page" 1) ∧
      (w.request [.compile "page" .empty] "default:page" .empty).offers =
        [letterBuilt "default:page" 1] := by
  obtain ⟨hbuilder, hlibrary⟩ := w.engine.compile_sameTemplates w.disk "page" .empty
  have hempty : w.engine.registry.Keeps [] := hr ▸ Registry.keeps_empty
  have hcache := (World.run_keeps hc hempty [.compile "page" .empty]).1
  have hfirst := offers_uncached (r := ⟨w, "page", .empty⟩) hc
    (letter_fresh hb hl (.inl rfl) letter_first)
  have hfresh := letter_fresh (w := w.step (.compile "page" .empty)) (hbuilder.trans hb)
    (hlibrary.trans hl) (.inr rfl) letter_spelled
  exact ⟨(List.append_nil _).trans hfirst, hfresh, offers_uncached hcache hfresh⟩

/-- The second spelling leads to the view of the first one. -/
theorem view_names_first_request_page : letterWorld.engine.registry = .empty ∧
    ∃ view, (letterWorld.request [.compile "page" .empty] "default:page" .empty).answer = .ok view ∧
      view.template = "page" ∧ view.template ≠ "default:page" := by
  obtain ⟨hfirst, hfresh, hsecond⟩ := letter_offers (w := letterWorld) rfl rfl rfl rfl
  have hbuilds : letterWorld.builds [.compile "page" .empty] = [letterBuilt "page" 1] := by
    simp only [World.builds, World.requests, List.filterMap, letterWorld_fresh]
    rfl
  have hscripts (w : World) (op : Operation) :
      (w.run [op]).engine.scripts = (w.step op).engine.scripts := rfl
  obtain ⟨view, hview⟩ : ∃ view, Request.answer _ = .ok view := ⟨_, answer_again rfl rfl
    letterWorld_fresh (Artifact.load_letter rfl rfl) hbuilds (hscripts ..) hfresh rfl⟩
  refine ⟨rfl, view, hview, ?_⟩
  obtain ⟨hfound, -⟩ := (view_names_first_request letterWorld rfl [.compile "page" .empty]
    "default:page" .empty).1 view hview
  rw [hfirst, hsecond] at hfound
  have hid : (letterBuilt "default:page" 1).id = (letterBuilt "page" 1).id := rfl
  rw [eq_of_find?_pair hid hfound]
  exact ⟨rfl, by decide⟩

end Request

end Lamina
