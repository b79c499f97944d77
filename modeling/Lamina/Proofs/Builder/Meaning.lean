import Lamina.Proofs.Builder.Loading

/-! What a template means apart from any session. A tree is a meaning of a view if parsing the view
gives it, with meanings of other views in answer to references; those asked for as fragments must be
known. A view has one meaning at most. -/

namespace Lamina

def Standing.anywhere (W : Type) [Preorder W] : Standing W := ⟨fun _ _ => True, fun _ h => h⟩

inductive Throughout
  | stage

instance : Preorder Throughout where
  le _ _ := True
  le_refl _ := trivial
  le_trans _ _ _ _ _ := trivial

namespace Lockstep

/-- Where the first computation succeeds, the second one does with the same result, from sessions
that are related to sessions that are. -/
def simulating (R : Session → Session → Prop) : Lockstep Throughout LoadM where
  holds _ x y Q := ∀ s t, R s t → ∀ a s', x.run s = (.ok a, s') →
    ∃ t', y.run t = (.ok a, t') ∧ R s' t' ∧ Q .stage a
  ofPure hQ s t hR a s' hr := by
    cases hr
    exact ⟨t, rfl, hR, hQ⟩
  ofBind hx hf s t hR b s' hr := by
    obtain ⟨a, s₁, hxr, hfr⟩ := run_bind_eq_ok.mp hr
    obtain ⟨t₁, hyr, hR₁, ha⟩ := hx s t hR a s₁ hxr
    obtain ⟨t', hgr, hR', hb⟩ := hf .stage a trivial ha s₁ t₁ hR₁ b s' hfr
    exact ⟨t', run_bind_eq_ok.mpr ⟨a, t₁, hyr, hgr⟩, hR', hb⟩
  ofFailure _ _ _ _ _ _ hr := nomatch hr

def agreeing (I : Session → Prop) : Lockstep Throughout LoadM where
  holds _ x y Q := ∀ s, I s → ∀ a s', x.run s = (.ok a, s') →
    ∀ t a' t', y.run t = (.ok a', t') → a = a' ∧ I s' ∧ Q .stage a
  ofPure hQ s hI a s' hr t a' t' hr' := by
    cases hr
    cases hr'
    exact ⟨rfl, hI, hQ⟩
  ofBind hx hf s hI b s' hr t b' t' hr' := by
    obtain ⟨a, s₁, hxr, hfr⟩ := run_bind_eq_ok.mp hr
    obtain ⟨a', t₁, hyr, hgr⟩ := run_bind_eq_ok.mp hr'
    obtain ⟨rfl, hI₁, ha⟩ := hx s hI a s₁ hxr t a' t₁ hyr
    exact hf .stage a trivial ha s₁ hI₁ b s' hfr t₁ b' t' hgr
  ofFailure _ _ _ _ _ hr := nomatch hr

theorem simulating_modify {R : Session → Session → Prop} {f : Session → Session}
    (h : ∀ s t, R s t → R (f s) (f t)) (w : Throughout) :
    (simulating R).holds w (modify f) (modify f) fun _ _ => True := by
  intro s t hR a s' hr
  cases hr
  exact ⟨f t, rfl, h s t hR, trivial⟩

theorem agreeing_modify {I : Session → Prop} {f : Session → Session} (h : ∀ s, I s → I (f s))
    (w : Throughout) : (agreeing I).holds w (modify f) (modify f) fun _ _ => True := by
  intro s hI a s' hr t a' t' hr'
  cases hr
  exact ⟨rfl, h s hI, trivial⟩

end Lockstep

namespace Builder

variable {b : Builder} {context : Context} {known known' : String → Prop} {view : View}
  {n n' : Node}

theorem parse_alike {W : Type} [Preorder W] {L : Lockstep W LoadM} (hb : b.Regular)
    (context : Context) (view : View) {r r' : Resolver} (hr : L.Resolvers (.anywhere W) r r')
    (hnote : ∀ w, L.holds w (modify (·.noteRead view.identity)) (modify (·.noteRead view.identity))
      fun _ _ => True) (w : W) :
    L.holds w (b.parse context r view) (b.parse context r' view) fun _ _ => True := by
  have hsource : L.holds w (b.source context view) (b.source context view) fun _ _ => True := by
    refine L.ofBind (hnote w) fun w₁ _ _ _ => ?_
    refine L.ofBind (liftExcept_lockstep _ w₁) fun w₂ text _ _ => ?_
    exact processors_lockstep b.processors context view text w₂
  refine L.ofBind hsource fun w₁ text _ _ => ?_
  split
  · exact L.ofThrow
  · next root _ =>
    have hroot : root.Sited ((Standing.anywhere W).holds w₁) := fun _ _ => trivial
    refine L.ofBind (run_sited hb.prepare (Standing.bears _) hr hroot) fun w₂ root' _ hroot' => ?_
    exact L.weaken (run_sited hb.transform (Standing.bears _) hr hroot') fun _ _ _ _ => trivial

/-- The tree of the view that `path` names, if there is one. -/
def answer (b : Builder) (trees : View → Option Node) (path : String) (_ : Origin) : LoadM Node :=
  match (b.loader.locate path).toOption.bind trees with
  | some n => return n
  | none => throw (.loader (.notFound path none))

theorem answer_run_eq_ok {trees : View → Option Node} {path : String} (o : Origin)
    {s s' : Session} : (b.answer trees path o).run s = (.ok n, s') ↔
      s' = s ∧ ∃ view, b.loader.locate path = .ok view ∧ trees view = some n := by
  unfold answer
  cases hl : b.loader.locate path with
  | error failure => exact ⟨nofun, nofun⟩
  | ok view =>
    simp only [Except.toOption, Option.bind_some]
    constructor
    · intro h
      split at h
      · next m hm =>
        cases h
        exact ⟨rfl, view, rfl, hm⟩
      · cases h
    · rintro ⟨rfl, view', hview, hn⟩
      cases hview
      rw [hn]
      rfl

/-- A tree that a view stands for, while fragments are known by identity. -/
inductive Means (b : Builder) (context : Context) (known : String → Prop) : View → Node → Prop
  | intro {view : View} {n : Node} {s s' : Session} (loads fragments : View → Option Node)
      (loaded : ∀ v m, loads v = some m → Means b context known v m)
      (shared : ∀ v m, fragments v = some m → Means b context known v m)
      (limit : ∀ v m, fragments v = some m → known v.identity)
      (parsed : (b.parse context ⟨b.answer loads, b.answer fragments⟩ view).run s = (.ok n, s')) :
      Means b context known view n

theorem Means.mono (h : b.Means context known view n) (hk : known ≤ known') :
    b.Means context known' view n := by
  induction h with
  | intro loads fragments _ _ limit parsed ihl ihf =>
    exact .intro loads fragments ihl ihf (fun v m hv => hk _ (limit v m hv)) parsed

theorem answer_agreeing {trees trees' : View → Option Node}
    (h : ∀ v m m', trees v = some m → trees' v = some m' → m = m') (path : String) (o : Origin) :
    (Lockstep.agreeing fun _ => True).holds .stage (b.answer trees path o) (b.answer trees' path o)
      fun _ n => n.Sited fun _ => True := by
  intro s _ m s' hr t m' t' hr'
  obtain ⟨-, view, hl, hm⟩ := (answer_run_eq_ok o).mp hr
  obtain ⟨-, view', hl', hm'⟩ := (answer_run_eq_ok o).mp hr'
  obtain rfl := Except.ok.inj (hl.symm.trans hl')
  exact ⟨h view m m' hm hm', trivial, fun _ _ => trivial⟩

theorem Means.unique (hb : b.Regular) (h : b.Means context known view n)
    (h' : b.Means context known' view n') : n = n' := by
  induction h generalizing n' with
  | @intro view _ _ _ loads fragments _ _ _ parsed ihl ihf =>
    cases h' with
    | intro loads' fragments' loaded' shared' _ parsed' =>
      have hr : (Lockstep.agreeing fun _ => True).Resolvers (.anywhere Throughout)
          ⟨b.answer loads, b.answer fragments⟩ ⟨b.answer loads', b.answer fragments'⟩ :=
        ⟨fun _ path o _ => answer_agreeing (fun v m m' hm hm' => ihl v m hm (loaded' v m' hm')) path o,
          fun _ path o _ => answer_agreeing (fun v m m' hm hm' => ihf v m hm (shared' v m' hm')) path o⟩
      have halike := parse_alike hb context view hr (Lockstep.agreeing_modify fun _ _ => trivial) .stage
      exact (halike _ trivial _ _ parsed _ _ _ parsed').1

open Classical in
noncomputable def meaning? (b : Builder) (context : Context) (known : String → Prop) (view : View) :
    Option Node :=
  if h : ∃ n, b.Means context known view n then some h.choose else none

theorem meaning?_eq_some_iff (hb : b.Regular) :
    b.meaning? context known view = some n ↔ b.Means context known view n := by
  unfold meaning?
  split
  · next h =>
    constructor
    · intro hn
      cases hn
      exact h.choose_spec
    · intro hn
      rw [hn.unique hb h.choose_spec]
  · next h => exact ⟨nofun, fun hn => absurd ⟨n, hn⟩ h⟩

open Classical in
noncomputable def knownMeaning? (b : Builder) (context : Context) (known : String → Prop)
    (view : View) : Option Node :=
  if known view.identity then b.meaning? context known view else none

theorem knownMeaning?_eq_some_iff (hb : b.Regular) :
    b.knownMeaning? context known view = some n ↔
      known view.identity ∧ b.Means context known view n := by
  unfold knownMeaning?
  split
  · next h => simp [meaning?_eq_some_iff hb, h]
  · next h => simp [h]

theorem means_of_parse (hb : b.Regular) {s s' : Session}
    (h : (b.parse context ⟨b.answer (b.meaning? context known),
      b.answer (b.knownMeaning? context known)⟩ view).run s = (.ok n, s')) :
    b.Means context known view n := by
  refine .intro _ _ (fun v m hm => ?_) (fun v m hm => ?_) (fun v m hm => ?_) h
  · exact (meaning?_eq_some_iff hb).mp hm
  · exact ((knownMeaning?_eq_some_iff hb).mp hm).2
  · exact ((knownMeaning?_eq_some_iff hb).mp hm).1

end Builder

end Lamina
