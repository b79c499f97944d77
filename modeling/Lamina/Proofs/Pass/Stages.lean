import Lamina.Proofs.Pass.Opening
import Lamina.Proofs.Walk.Refining

/-! The stages of a build. Preparing a template removes reserved elements, transforming it removes
references, and finalizing a page removes everything else that cannot be written, each at every
depth and in attribute values. Nothing comes back, since nodes that are moved come from trees that
have been through the stage. -/

namespace Lamina

/-- A trait of constructs alone, which text always has. -/
def Trait.plain (p : Node → Prop)
    (parts : ∀ {n} attrs children, p n → p (n.withParts attrs children))
    (text : ∀ text o, p (.raw text o)) : Trait where
  node := p
  attr _ := True
  parts := parts
  value _ _ := trivial
  text _ _ := text _ _
  content _ _ := text _ _
  asAttr _ _ _ := trivial

namespace Node

/-- No element of a template has one of the other names once its references are resolved. -/
structure MergedName (name : String) : Prop extends PreparedName name where
  use : name ≠ "use"
  fragment : ¬ InFamily "include" name

/-- A construct of a template whose references are resolved. -/
def Merged : Node → Prop
  | tag name _ _ _ _ => MergedName name
  | fragment .. => False
  | _ => True

def Resolving : Node → Prop
  | tag name _ _ _ _ => MergedName name
  | _ => True

/-- A construct of a finished page: not a reference, a directive, an echo or a contribution, and not
a reserved element. -/
def Finished : Node → Prop
  | tag name _ _ _ _ => MergedName name
  | fragment .. | directive .. | echo .. | push .. => False
  | _ => True

end Node

namespace Trait

def anything : Trait := .plain (fun _ => True) (fun _ _ _ => trivial) (fun _ _ => trivial)

def prepared : Trait :=
  .plain (Node.Named Node.PreparedName) (fun {n} _ _ h => by cases n <;> exact h)
    (fun _ _ => trivial)

def resolving : Trait :=
  .plain Node.Resolving (fun {n} _ _ h => by cases n <;> exact h) (fun _ _ => trivial)

def merged : Trait :=
  .plain Node.Merged (fun {n} _ _ h => by cases n <;> exact h) (fun _ _ => trivial)

def finished : Trait :=
  .plain Node.Finished (fun {n} _ _ h => by cases n <;> exact h) (fun _ _ => trivial)

theorem merged_attaches (r : Origin) : merged.Attaches r merged :=
  ⟨fun n h => by cases n <;> exact h, fun _ _ _ _ => trivial⟩

end Trait

theorem Node.has_anything (n : Node) : n.Has .anything := fun _ _ => ⟨trivial, fun _ _ => trivial⟩

theorem Node.hasBelow_anything (n : Node) : n.HasBelow .anything :=
  ⟨fun _ _ => ⟨trivial, fun c _ => c.has_anything⟩, fun c _ => c.has_anything⟩

theorem Entered.Opens.ends {n : Node} {e : Entered n} {R : Option Node → Prop} {A B : Node → Prop}
    (h : e.Opens R) (hR : ∀ m, R (some m) → A m) : e.Ends A B := by
  cases e with
  | replace nodes =>
    rw [h.2]
    exact List.forall_mem_nil _
  | keep m => exact ⟨hR m h.1, h.2⟩

namespace Pass

variable {W : Type} [Preorder W] {w : W} {scopes : List Scope} {n : Node} {r : Resolver}

section Prepare

variable {L : Lockstep W WalkM} {B : Node → Prop}

theorem entering_holds {x : WalkM (Entered n)} {R : Option Node → Prop} {A : Node → Prop}
    (h : Entering R x) (hR : ∀ m, R (some m) → A m) : L.holds w x x fun _ => Entered.Ends A B := by
  cases h with
  | fails => exact L.ofThrow
  | opens h => exact L.ofPure (h.ends hR)

theorem Opens.named {m : Node} (h : Opens n (some m)) : m.Named Node.PreparedName := by
  cases h with
  | other hn =>
    cases n with
    | tag => cases hn
    | _ => trivial
  | element _ prepared => exact prepared
  | block | stack | push => trivial

theorem prepare_leave (scopes : List Scope) (n : Node) :
    Walk.leaveAll scopes n (prepare.map fun pass => pass r) = pure [n] :=
  rfl

theorem prepare_visitors (L : Lockstep W WalkM) (r : Resolver) :
    L.Visitors (.refining .anything .prepared .prepared fun _ _ => trivial)
      (prepare.map fun pass => pass r) (prepare.map fun pass => pass r) := by
  refine Lockstep.visitors_refining (fun w scopes n _ => ?_) (fun w scopes n h => ?_)
  · exact entering_holds (entering_prepare r scopes n) fun m hm => ⟨hm.named, m.hasBelow_anything⟩
  · rw [prepare_leave]
    exact L.ofPure (List.forall_mem_singleton.mpr (Node.has_iff.mpr h))

end Prepare

structure Gives (L : Lockstep W LoadM) (T : Trait) (r : Resolver) : Prop where
  load : ∀ w path o, L.holds w (r.load path o) (r.load path o) fun _ n => n.Has T
  fragment : ∀ w path o, L.holds w (r.fragment path o) (r.fragment path o) fun _ n => n.Has T

section Transform

variable {L : Lockstep W LoadM} {B : Node → Prop} {T : Trait}

theorem imports_enter (h : n.Has .prepared) : (L.withState fun _ _ => True).holds w
    ((imports r).enter scopes n) ((imports r).enter scopes n)
    fun _ => Entered.Ends (fun x => x.Resolving ∧ x.HasBelow .prepared) B := by
  have hbelow := h.below
  have hn := (Node.has_iff.mp h).1
  refine Lockstep.weaken (imports_links (fun _ _ ht => ht) fun _ => trivial) fun w' e _ he => ?_
  refine he.ends fun m hm => ?_
  cases hm with
  | same hname =>
    cases n with
    | tag => exact ⟨⟨hn, hname.1, hname.2⟩, hbelow⟩
    | _ => exact ⟨trivial, hbelow⟩
  | fragment => exact ⟨trivial, hbelow⟩

theorem imports_leave (hattach : ∀ o, T.Attaches o T) (hr : Gives L T r)
    (hn : T.node n ∨ ∃ path attrs children o, n = .fragment path attrs children o)
    (hbelow : n.HasBelow T) : (L.withState fun _ _ => True).holds w ((imports r).leave scopes n)
      ((imports r).leave scopes n) fun _ => Left.Ends (Node.Has T) (Node.Has T) := by
  refine Lockstep.ofBind _ (Lockstep.ofModify fun t ht => ht) fun w₁ _ _ _ => ?_
  cases n with
  | fragment path attrs children o =>
    have hf := Lockstep.ofLift (J := fun _ (_ : Notes) => True) (fun _ _ => trivial)
      (hr.fragment w₁ path o)
    -- the fragment has the trait already, so splicing it in brings nothing back
    refine Lockstep.ofBind _ hf fun w₂ fragment _ hfragment => Lockstep.ofPure _ ?_
    exact has_splice hbelow.1 hbelow.2 (hattach o) hfragment
  | _ =>
    have hnode := hn.resolve_right (by simp)
    exact Lockstep.ofPure _ (Node.has_iff.mpr ⟨hnode, hbelow⟩)

theorem extension_leave (strict : Bool) (htop : ∀ children o, T.node (.template children o))
    (hattach : ∀ o, T.Attaches o T) (hr : Gives L T r) (h : n.Has T) :
    (L.withState fun _ _ => True).holds w ((extension strict r).leave scopes n)
      ((extension strict r).leave scopes n) fun _ => Left.Ends (Node.Has T) (Node.Has T) := by
  cases n with
  | template children o =>
    dsimp only [extension, Visitor.onLeave]
    split
    · exact Lockstep.ofPure _ h
    · split
      · exact Lockstep.ofPure _ h
      · next name attrs reference others hextends =>
        split
        · exact Lockstep.ofThrow _
        · next path _ =>
          obtain ⟨-, ha, hothers⟩ := has_takeExtends hextends h.below.2
          have hl := Lockstep.ofLift (J := fun _ (_ : Notes) => True) (fun _ _ => trivial)
            (hr.load w path reference)
          refine Lockstep.ofBind _ hl fun w' parent _ hparent => ?_
          have hpage := has_extended ha hothers (hattach reference) hparent
          split
          · exact Lockstep.ofThrow _
          · exact Lockstep.ofPure _ (Node.has_iff.mpr ⟨htop _ _, List.forall_mem_nil _, hpage⟩)
  | _ => exact Lockstep.ofPure _ h

theorem transform_visitors (L : Lockstep W LoadM) (strict : Bool) {r : Resolver}
    (hr : Gives L .merged r) : (L.withState fun _ _ => True).Visitors
      (.refining .prepared .resolving .merged fun _ _ => trivial)
      ((transform strict).map fun pass => pass r) ((transform strict).map fun pass => pass r) := by
  refine Lockstep.visitors_refining (fun w scopes n h => ?_) (fun w scopes n h => ?_)
  · refine Lockstep.enterAll_cons (imports_enter h) fun w₁ n₁ h₁ => ?_
    exact Lockstep.enterAll_go (List.forall_mem_singleton.mpr fun _ => rfl) h₁
  · have hnode : Node.Merged n ∨ ∃ path attrs children o, n = .fragment path attrs children o := by
      cases n with
      | fragment => exact .inr ⟨_, _, _, _, rfl⟩
      | tag => exact .inl h.1
      | _ => exact .inl trivial
    refine Lockstep.leaveAll_cons (imports_leave Trait.merged_attaches hr hnode h.2)
      fun w₁ n₁ h₁ => ?_
    refine Lockstep.leaveAll_cons (extension_leave strict (fun _ _ => trivial) Trait.merged_attaches
      hr h₁) fun w₂ n₂ h₂ => ?_
    exact Lockstep.leaveAll_nil h₂

end Transform

section Finalize

variable {L : Lockstep W LoadM} {B P : Node → Prop} {T : Trait}

def NotesHave (T : Trait) (_ : W) (notes : Notes) : Prop :=
  ∀ c ∈ notes.contributions, ∀ x ∈ c.nodes, x.Has T

theorem collect_leave (htop : ∀ children o, P (.template children o)) (hn : P n)
    (hbelow : n.HasBelow T) :
    (L.withState (NotesHave T)).holds w ((collect r).leave scopes n) ((collect r).leave scopes n)
      fun _ => Left.Ends (fun x => P x ∧ isPush x = false ∧ x.HasBelow T) B := by
  cases n with
  | push name prepend children o =>
    refine Lockstep.ofBind _ (Lockstep.ofModify fun notes hnotes => ?_) fun _ _ _ _ =>
      Lockstep.ofPure _ (List.forall_mem_nil _)
    exact List.forall_mem_append.mpr ⟨hnotes, List.forall_mem_singleton.mpr hbelow.2⟩
  | template children o =>
    dsimp only [collect, Visitor.onLeave]
    -- only the outermost template is filled, and by then every contribution has been noted
    split
    · refine Lockstep.ofBind _ Lockstep.ofGet fun w' notes _ hnotes => Lockstep.ofPure _ ?_
      exact ⟨htop _ _, rfl, List.forall_mem_nil _, Node.Has.fillStacksAll hnotes hbelow.2⟩
    · exact Lockstep.ofPure _ ⟨hn, rfl, hbelow⟩
  | _ => exact Lockstep.ofPure _ ⟨hn, rfl, hbelow⟩

/-- Directives and echoes of the one trait become code of the other, and what is no contribution
either has both. -/
structure Finishes (directives : Directives) (T T' : Trait) : Prop where
  top : ∀ children o, T.node (.template children o)
  attr : ∀ a, T.attr a → T'.attr a
  raw : ∀ text o, T'.node (.raw text o)
  other : ∀ n, T.node n → isPush n = false →
    match n with
    | .directive .. | .echo .. => True
    | n => T'.node n
  echo : ∀ expr escape o, T.node (.echo expr escape o) →
    T'.node (.host (echoCode (Text.onChars Text.trim expr) escape) o)
  directive : ∀ name values body o code, T.node (.directive name values body o) →
    directives.expand ⟨name, values, body, o⟩ = .ok code → T'.node (.host code o)

variable {T' : Trait} {directives : Directives}

theorem expand_leave (he : Finishes directives T T') (hn : T.node n) (hpush : isPush n = false)
    (hbelow : n.HasBelow T') :
    (L.withState (NotesHave T')).holds w ((expand directives r).leave scopes n)
      ((expand directives r).leave scopes n) fun _ => Left.Ends (Node.Has T') B := by
  cases n with
  | directive name values body o =>
    dsimp only [expand, Visitor.onLeave]
    split
    · exact Lockstep.ofPure _ (Node.has_of_leaf rfl (he.raw _ _))
    · split
      · exact Lockstep.ofThrow _
      · next hexpand =>
        exact Lockstep.ofPure _ (Node.has_of_leaf rfl (he.directive _ _ _ _ _ hn hexpand))
  | echo expr escape o =>
    dsimp only [expand, Visitor.onLeave]
    split
    · exact Lockstep.ofThrow _
    · exact Lockstep.ofPure _ (Node.has_of_leaf rfl (he.echo expr escape o hn))
  | _ => exact Lockstep.ofPure _ (Node.has_iff.mpr ⟨he.other _ hn hpush, hbelow⟩)

theorem tidy_leave {J : W → Notes → Prop} (preserve : List Scope → Bool)
    (hraw : ∀ text o, T.node (.raw text o)) (htop : ∀ children o, T.node (.template children o))
    (h : n.Has T) : (L.withState J).holds w ((tidy preserve r).leave scopes n)
      ((tidy preserve r).leave scopes n) fun _ => Left.Ends (Node.Has T) B := by
  cases n with
  | raw text o => exact Lockstep.ofPure _ (Node.has_of_leaf rfl (hraw _ o))
  | template children o =>
    refine Lockstep.ofPure _ (Node.has_iff.mpr ⟨htop _ _, List.forall_mem_nil _, ?_⟩)
    have hc := h.below.2
    by_cases hs : scopes.isEmpty
    · rw [if_pos hs]
      exact has_trimEdges hc
    · rw [if_neg hs]
      exact hc
  | _ => exact Lockstep.ofPure _ h

theorem finalize_visitors (L : Lockstep W LoadM) (he : Finishes directives T T')
    (preserve : List Scope → Bool) (r : Resolver) : (L.withState (NotesHave T')).Visitors
      (.refining T T T' he.attr)
      ((finalize directives preserve).map fun pass => pass r)
      ((finalize directives preserve).map fun pass => pass r) := by
  refine Lockstep.visitors_refining (fun w scopes n h => ?_) (fun w scopes n h => ?_)
  · refine Lockstep.enterAll_go ?_ (Node.has_iff.mp h)
    simp only [finalize, List.map_cons, List.map_nil, List.forall_mem_cons]
    exact ⟨fun _ => rfl, fun _ => rfl, fun _ => rfl, List.forall_mem_nil _⟩
  · refine Lockstep.leaveAll_cons (collect_leave he.top h.1 h.2) fun w₁ n₁ h₁ => ?_
    refine Lockstep.leaveAll_cons (expand_leave he h₁.1 h₁.2.1 h₁.2.2) fun w₂ n₂ h₂ => ?_
    refine Lockstep.leaveAll_cons (tidy_leave preserve he.raw
      (fun _ _ => he.other _ (he.top _ _) rfl) h₂) fun w₃ n₃ h₃ => ?_
    exact Lockstep.leaveAll_nil h₃

theorem merged_finishes (directives : Directives) : Finishes directives .merged .finished := by
  refine ⟨fun _ _ => trivial, fun _ _ => trivial, fun _ _ => trivial, fun n hn hpush => ?_,
    fun _ _ _ _ => trivial, fun _ _ _ _ _ _ _ => trivial⟩
  cases n with
  | push => cases hpush
  | directive | echo => trivial
  | _ => exact hn

end Finalize

end Pass

end Lamina
