import Lamina.Proofs.Builder.Memo

/-! Meanings that are arrived at without certain templates. A template has no part in the meanings of
the templates it refers to, so whatever has a meaning loads, or references nest too deep on the
way. -/

namespace Lamina

def Failure.TooDeep (limit : Nat) (failure : Failure) : Prop :=
  ∃ file line, failure = .merge (.tooDeep limit) file line

namespace Builder

variable {b : Builder} {context : Context} {off off' : String → Prop} {view : View} {n : Node}
  {path : String}

/-- A tree that a view stands for, where no template is referred to whose identity is `off`. -/
inductive Avoids (b : Builder) (context : Context) (off : String → Prop) : View → Node → Prop
  | intro {view : View} {n : Node} {s s' : Session} (outside : ¬ off view.identity)
      (loads fragments : View → Option Node)
      (answered : ∀ path v m, b.loader.locate path = .ok v → loads v = some m ∨ fragments v = some m →
        Avoids b context off v m)
      (parsed : (b.parse context ⟨b.answer loads, b.answer fragments⟩ view).run s = (.ok n, s')) :
      Avoids b context off view n

def Rests (b : Builder) (context : Context) (off : String → Prop) (view : View) (n : Node) : Prop :=
  ∃ (loads fragments : View → Option Node) (s s' : Session),
    (∀ path v m, b.loader.locate path = .ok v → loads v = some m ∨ fragments v = some m →
      b.Avoids context off v m) ∧
    (b.parse context ⟨b.answer loads, b.answer fragments⟩ view).run s = (.ok n, s')

theorem avoids_of_means {known : String → Prop} (h : b.Means context known view n) :
    b.Avoids context (fun _ => False) view n := by
  induction h with
  | intro loads fragments _ _ _ parsed ihl ihf =>
    exact .intro id loads fragments (fun _ v m _ hm => hm.elim (ihl v m) (ihf v m)) parsed

theorem Avoids.anti (h : b.Avoids context off view n) (hle : off' ≤ off) :
    b.Avoids context off' view n := by
  induction h with
  | intro outside loads fragments _ parsed ih =>
    exact .intro (fun ho => outside (hle _ ho)) loads fragments ih parsed

theorem Avoids.outside (h : b.Avoids context off view n) : ¬ off view.identity := by
  cases h with
  | intro outside => exact outside

open Classical in
theorem answer_located (trees : View → Option Node) :
    b.answer trees =
      b.answer fun v => if ∃ path, b.loader.locate path = .ok v then trees v else none := by
  funext path o
  unfold answer
  cases hl : b.loader.locate path with
  | error failure => rfl
  | ok view =>
    have hex : ∃ path, b.loader.locate path = .ok view := ⟨path, hl⟩
    simp only [Except.toOption, Option.bind_some, if_pos hex]

theorem Avoids.means (h : b.Avoids context off view n) :
    b.Means context (fun _ => True) view n := by
  induction h with
  | intro outside loads fragments _ parsed ih =>
    rw [answer_located loads, answer_located fragments] at parsed
    refine .intro _ _ (fun v m hm => ?_) (fun v m hm => ?_) (fun _ _ _ => trivial) parsed
    · split at hm
      · next hl => exact ih _ v m hl.choose_spec (.inl hm)
      · cases hm
    · split at hm
      · next hl => exact ih _ v m hl.choose_spec (.inr hm)
      · cases hm

theorem Rests.means (h : b.Rests context off view n) : b.Means context (fun _ => True) view n := by
  obtain ⟨loads, fragments, s, s', answered, parsed⟩ := h
  have hnone : ¬ (fun _ : String => False) view.identity := id
  exact (Avoids.intro hnone loads fragments
    (fun path v m hl hm => (answered path v m hl hm).anti fun _ => False.elim) parsed).means

/-- The template has no part in the meaning of another one, or it has a meaning in which it has no
part itself. -/
theorem Avoids.split (hl : b.loader.Faithful) (hv : b.loader.locate path = .ok view) {v : View}
    {m : Node} (h : b.Avoids context off v m) {path' : String}
    (hv' : b.loader.locate path' = .ok v) :
    b.Avoids context (fun i => off i ∨ i = view.identity) v m ∨
      ∃ n, b.Rests context (fun i => off i ∨ i = view.identity) view n := by
  by_cases hrests : ∃ n, b.Rests context (fun i => off i ∨ i = view.identity) view n
  · exact .inr hrests
  · refine .inl ?_
    induction h generalizing path' with
    | @intro v m s s' outside loads fragments _ parsed ih =>
      have answered : ∀ path v m, b.loader.locate path = .ok v →
          loads v = some m ∨ fragments v = some m →
          b.Avoids context (fun i => off i ∨ i = view.identity) v m :=
        fun path v m hv hm => ih path v m hv hm hv
      refine .intro ?_ loads fragments answered parsed
      rintro (ho | hi)
      · exact outside ho
      · obtain rfl := hl path' path v view hv' hv hi
        exact hrests ⟨m, loads, fragments, s, s', answered, parsed⟩

theorem Avoids.rests (hb : b.Regular) (hl : b.loader.Faithful) (hv : b.loader.locate path = .ok view)
    (h : b.Avoids context off view n) :
    b.Rests context (fun i => off i ∨ i = view.identity) view n := by
  rcases h.split hl hv hv with hself | ⟨m, hm⟩
  · exact absurd (.inr rfl) hself.outside
  · rw [h.means.unique hb hm.means]
    exact hm

/-- Where the second computation succeeds, the first one comes to the same result, or references
nest too deep. -/
def reaching (b : Builder) (context : Context) : Lockstep Throughout LoadM where
  holds _ x y Q := ∀ s, b.Trusts context s → ∀ t a t', y.run t = (.ok a, t') →
    (∃ s', x.run s = (.ok a, s') ∧ b.Trusts context s' ∧ Q .stage a) ∨
      ∃ failure s', x.run s = (.error failure, s') ∧ failure.TooDeep b.maxDepth
  ofPure hQ s hs t a t' hr := by
    cases hr
    exact .inl ⟨s, rfl, hs, hQ⟩
  ofBind hx hf s hs t c t' hr := by
    obtain ⟨a, t₁, hyr, hgr⟩ := run_bind_eq_ok.mp hr
    rw [run_bind]
    rcases hx s hs t a t₁ hyr with ⟨s₁, hxr, hs₁, ha⟩ | ⟨failure, s₁, hxr, hdeep⟩
    · rw [hxr]
      exact hf .stage a trivial ha s₁ hs₁ t₁ c t' hgr
    · rw [hxr]
      exact .inr ⟨failure, s₁, rfl, hdeep⟩
  ofFailure _ _ _ _ _ _ hr := nomatch hr

theorem reaching_modify {f : Session → Session} (h : ∀ s, (f s).fragments = s.fragments)
    (w : Throughout) :
    (b.reaching context).holds w (modify f) (modify f) fun _ _ => True := by
  intro s hs t a t' hr
  cases hr
  exact .inl ⟨f s, rfl, hs.congr (h s), trivial⟩

theorem fragmentVia_reaches (hb : b.Regular) (hl : b.loader.Faithful)
    (load : String → Origin → LoadM Node) {o : Origin} {s : Session} (hs : b.Trusts context s)
    (hv : b.loader.locate path = .ok view) (hn : b.Means context (fun _ => True) view n)
    (haccounts : b.Accounts context true path (load path o))
    (hload : (∃ s', (load path o).run s = (.ok n, s')) ∨
      ∃ failure s', (load path o).run s = (.error failure, s') ∧ failure.TooDeep b.maxDepth) :
    (∃ s', (b.fragmentVia load path o).run s = (.ok n, s') ∧ b.Trusts context s') ∨
      ∃ failure s', (b.fragmentVia load path o).run s = (.error failure, s') ∧
        failure.TooDeep b.maxDepth := by
  cases hf : s.fragment? view.identity with
  | some fragment =>
    have hfragment := hs path view fragment hv (Session.mem_of_fragment? hf)
    obtain rfl := hn.unique hb hfragment
    exact .inl ⟨s, fragmentVia_run_of_some hv hf o, hs⟩
  | none =>
    rw [fragmentVia_run_of_none hv hf, run_bind]
    rcases hload with ⟨s₁, hrun⟩ | ⟨failure, s₁, hrun, hdeep⟩
    · obtain ⟨hs₁, -, hok⟩ := haccounts s hs _ s₁ hrun
      obtain ⟨view', hv', hmeans⟩ := hok n rfl
      obtain rfl := Except.ok.inj (hv.symm.trans hv')
      rw [hrun]
      exact .inl ⟨_, rfl, hs₁.remember hl hv (hmeans.mono fun _ hk => hk rfl)⟩
    · rw [hrun]
      exact .inr ⟨failure, s₁, rfl, hdeep⟩

theorem resolvers_reaching (hb : b.Regular) (hl : b.loader.Faithful)
    {load : String → Origin → LoadM Node} {loads fragments : View → Option Node}
    (haccounts : ∀ path o, b.Accounts context true path (load path o))
    (hmeans : ∀ path v m, b.loader.locate path = .ok v → loads v = some m ∨ fragments v = some m →
      b.Means context (fun _ => True) v m)
    (hload : ∀ path v m o s, b.loader.locate path = .ok v →
      loads v = some m ∨ fragments v = some m → b.Trusts context s →
      (∃ s', (load path o).run s = (.ok m, s')) ∨
        ∃ failure s', (load path o).run s = (.error failure, s') ∧ failure.TooDeep b.maxDepth) :
    (b.reaching context).Resolvers (.anywhere Throughout) ⟨load, b.fragmentVia load⟩
      ⟨b.answer loads, b.answer fragments⟩ := by
  constructor
  · intro _ path o _ s hs t m t' hr
    obtain ⟨-, v, hv, hm⟩ := (answer_run_eq_ok o).mp hr
    refine (hload path v m o s hv (.inl hm) hs).imp_left ?_
    rintro ⟨s', hrun⟩
    exact ⟨s', hrun, (haccounts path o s hs _ s' hrun).1, fun _ _ => trivial⟩
  · intro _ path o _ s hs t m t' hr
    obtain ⟨-, v, hv, hm⟩ := (answer_run_eq_ok o).mp hr
    refine (fragmentVia_reaches hb hl load hs hv (hmeans path v m hv (.inr hm)) (haccounts path o)
      (hload path v m o s hv (.inr hm) hs)).imp_left ?_
    rintro ⟨s', hrun, hs'⟩
    exact ⟨s', hrun, hs', fun _ _ => trivial⟩

theorem loadAt_reaches (hb : b.Regular) (hl : b.loader.Faithful) (budget : Nat)
    {chain : List String} (reference : Option Origin) (hv : b.loader.locate path = .ok view)
    (h : b.Avoids context (· ∈ chain) view n) {s : Session} (hs : b.Trusts context s) :
    (∃ s', (b.loadAt context budget chain path reference).run s = (.ok n, s')) ∨
      ∃ failure s', (b.loadAt context budget chain path reference).run s = (.error failure, s') ∧
        failure.TooDeep b.maxDepth := by
  induction budget generalizing chain path reference view n s with
  | zero =>
    rw [loadAt, locate_eq hv, pure_bind, if_neg (by simpa using h.outside)]
    refine .inr ?_
    cases reference with
    | none => exact ⟨_, s, rfl, _, _, rfl⟩
    | some o => exact ⟨_, s, rfl, _, _, rfl⟩
  | succ budget ih =>
    obtain ⟨loads, fragments, t, t', answered, parsed⟩ := h.rests hb hl hv
    have haccounts (path : String) (o : Origin) : b.Accounts context true path
        (b.loadAt context budget (chain ++ [view.identity]) path (some o)) := by
      rw [← loadBy_true]
      exact loadBy_accounts hb hl context true budget _ path (some o)
    -- the template is on the chain from here on, and its references get along without it
    have hchild {path : String} {v : View} {m : Node} (hv : b.loader.locate path = .ok v)
        (hm : loads v = some m ∨ fragments v = some m) :
        b.Avoids context (· ∈ chain ++ [view.identity]) v m := by
      refine (answered path v m hv hm).anti fun i hi => ?_
      simpa using hi
    have hresolvers := resolvers_reaching hb hl haccounts
      (fun path v m hv hm => (hchild hv hm).means)
      (fun path v m o s hv hm hs => ih (some o) hv (hchild hv hm) hs)
    have hparse := parse_alike hb context view hresolvers (reaching_modify fun _ => rfl) .stage
    rw [loadAt_run context budget reference hv h.outside]
    refine (hparse _ (hs.congr (s.fragments_consult _)) t n t' parsed).imp_left ?_
    rintro ⟨s', hrun, -⟩
    exact ⟨s', hrun⟩

end Builder

end Lamina
