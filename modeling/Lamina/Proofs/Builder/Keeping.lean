import Lamina.Proofs.Builder.Dependencies
import Lamina.Proofs.Pass.Stages

/-! Traits of whatever is loaded. If every template has a trait once those it refers to have it, then
all that are loaded have it, and so do the fragments that a session remembers of them. -/

namespace Lamina

def Session.Remembers (T : Trait) (s : Session) : Prop := ∀ entry ∈ s.fragments, entry.2.Has T

def Lockstep.remembering (T : Trait) : Lockstep Session LoadM :=
  .ofRuns (Session.Remembers T) (fun _ => False) fun _ h => h

namespace Builder

variable {b : Builder} {context : Context} {s : Session} {T : Trait}

theorem run_refined {L : Lockstep Session LoadM} {J : Session → Notes → Prop} {passes : List Pass}
    {r : Resolver} {T R T' : Trait} {hattr : ∀ a, T.attr a → T'.attr a}
    (hv : (L.withState J).Visitors (.refining T R T' hattr) (passes.map fun pass => pass r)
      (passes.map fun pass => pass r))
    (hne : passes.isEmpty = false) (hJ : J s {})
    (htop : ∀ children o, T'.node (.template children o)) {root : Node} (h : root.Has T) :
    L.holds s (run passes r root) (run passes r root) fun _ n => n.Has T' := by
  rw [run, if_neg (by simp [hne])]
  refine L.ofBind (Lockstep.walk_root hv s root h {} hJ) fun s' result _ hresult => ?_
  obtain ⟨n, notes⟩ := result
  refine L.ofPure (?_ : n.Has T')
  rcases hresult.1 with hn | ⟨nodes, rfl, hl⟩
  · exact hn
  · exact Node.has_iff.mpr ⟨htop _ _, List.forall_mem_nil _, hl⟩

theorem fragmentVia_remembering (load : String → Origin → LoadM Node) {path : String} {o : Origin}
    (hload : (Lockstep.remembering T).holds s (load path o) (load path o) fun _ n => n.Has T) :
    (Lockstep.remembering T).holds s (b.fragmentVia load path o) (b.fragmentVia load path o)
      fun _ n => n.Has T := by
  intro hs n s' hr
  cases hl : b.loader.locate path with
  | error failure =>
    rw [fragmentVia_run_of_error hl] at hr
    obtain ⟨hle, hs', hn, -⟩ := hload hs n s' hr
    exact ⟨hle, hs', hn, False.elim⟩
  | ok view =>
    cases hf : s.fragment? view.identity with
    | some fragment =>
      rw [fragmentVia_run_of_some hl hf] at hr
      cases hr
      exact ⟨le_refl _, hs, hs _ (Session.mem_of_fragment? hf), False.elim⟩
    | none =>
      rw [fragmentVia_run_of_none hl hf] at hr
      obtain ⟨fragment, t, hx, hr⟩ := run_bind_eq_ok.mp hr
      cases hr
      obtain ⟨hle, ht, hn, -⟩ := hload hs n t hx
      exact ⟨hle, List.forall_mem_cons.mpr ⟨hn, ht⟩, hn, False.elim⟩

theorem loadAt_remembering
    (hparse : ∀ s view r, (∃ path, b.loader.locate path = .ok view) →
      Pass.Gives (.remembering T) T r → (Lockstep.remembering T).holds s (b.parse context r view)
        (b.parse context r view) fun _ n => n.Has T)
    (budget : Nat) (chain : List String) (path : String) (reference : Option Origin) :
    (Lockstep.remembering T).holds s (b.loadAt context budget chain path reference)
      (b.loadAt context budget chain path reference) fun _ n => n.Has T := by
  -- the budget bounds how deep references nest, and without any no template is loaded
  induction budget generalizing chain path reference s with
  | zero =>
    intro _ n s' hr
    obtain ⟨view, k, -, -, hk⟩ := loadAt_run_eq_ok hr
    cases hk
  | succ budget ih =>
    intro hs n s' hr
    obtain ⟨view, -, hl, hc, -⟩ := loadAt_run_eq_ok hr
    rw [loadAt_run context budget reference hl hc] at hr
    -- what the template refers to is loaded with the budget below, so it has the trait when it is used
    have hnested : Pass.Gives (.remembering T) T
        (b.resolver (b.loadAt context budget (chain ++ [view.identity]))) :=
      ⟨fun _ _ _ => ih _ _ _, fun _ _ _ => fragmentVia_remembering
        (fun path o => b.loadAt context budget (chain ++ [view.identity]) path (some o)) (ih _ _ _)⟩
    have hconsulted : (s.consult view.filename).Remembers T := by
      rw [Session.Remembers, Session.fragments_consult]
      exact hs
    obtain ⟨hle, hs', hn, -⟩ := hparse _ view _ ⟨path, hl⟩ hnested hconsulted n s' hr
    exact ⟨(s.le_consult _).trans hle, hs', hn, False.elim⟩

theorem has_of_build {T' : Trait} {directives : Directives} {preserve : List Scope → Bool}
    (hfinalize : b.finalize = Pass.finalize directives preserve)
    (he : Pass.Finishes directives T T')
    (hparse : ∀ s view r, (∃ path, b.loader.locate path = .ok view) →
      Pass.Gives (.remembering T) T r → (Lockstep.remembering T).holds s (b.parse context r view)
        (b.parse context r view) fun _ n => n.Has T)
    {path : String} {page : Page} (h : (b.build context path).1 = .ok page) : page.root.Has T' := by
  have hv := Pass.finalize_visitors (Lockstep.remembering T) he preserve
    (b.resolver (b.load context))
  rw [← hfinalize] at hv
  have hne : b.finalize.isEmpty = false := by
    rw [hfinalize]
    rfl
  have hfinish : (Lockstep.remembering T).holds {} (b.buildM context path) (b.buildM context path)
      fun _ page => page.root.Has T' := by
    refine Lockstep.ofBind _ (loadAt_remembering hparse _ _ path none) fun s root _ hroot => ?_
    have hrun := run_refined (s := s) hv hne (List.forall_mem_nil _)
      (fun _ _ => he.other _ (he.top _ _) rfl) hroot
    refine Lockstep.ofBind _ hrun fun s' root' _ hroot' => ?_
    intro hs page t hr
    cases hr
    exact ⟨le_refl _, hs, hroot', False.elim⟩
  exact (hfinish (List.forall_mem_nil _) page _ (Prod.ext h rfl)).2.2.1

end Builder

end Lamina
