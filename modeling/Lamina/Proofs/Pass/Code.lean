import Lamina.Proofs.Pass.Stages

/-! Elements and script code on their way through the passes. Until a page is finalized they are only
moved, so what is true of every one of them stays true. Then each directive and each echo becomes the
code it stands for, where it was written. -/

namespace Lamina

open Lamina.Text

def Node.isFrame : Node → Bool
  | template .. | raw .. | block .. | stack .. | push .. | fragment .. => true
  | tag .. | echo .. | directive .. | host .. => false

def Trait.OfCode (T : Trait) : Prop := ∀ n : Node, n.isFrame = true → T.node n

variable {W : Type} [Preorder W]

namespace Lockstep

variable {m : Type → Type} [Monad m] [MonadExceptOf Failure m] {L : Lockstep W m} {T : Trait}
  {vs : List (Visitor m)} {w : W} {scopes : List Scope} {n : Node}

structure Keeps (L : Lockstep W m) (T : Trait) (v : Visitor m) : Prop where
  enter : ∀ w scopes n, n.Has T → L.holds w (v.enter scopes n) (v.enter scopes n)
    fun _ => Entered.Ends (Node.Has T) (Node.Has T)
  leave : ∀ w scopes n, n.Has T → L.holds w (v.leave scopes n) (v.leave scopes n)
    fun _ => Left.Ends (Node.Has T) (Node.Has T)

theorem enterAll_kept (h : ∀ v ∈ vs, L.Keeps T v) (hn : n.Has T) :
    L.holds w (Walk.enterAll scopes n vs) (Walk.enterAll scopes n vs)
      fun _ => Entered.Ends (Node.Has T) (Node.Has T) := by
  induction vs generalizing w n with
  | nil => exact enterAll_nil hn
  | cons v vs ih =>
    rw [List.forall_mem_cons] at h
    exact enterAll_cons (h.1.enter w scopes n hn) fun w' n' hn' => ih h.2 hn'

theorem leaveAll_kept (h : ∀ v ∈ vs, L.Keeps T v) (hn : n.Has T) :
    L.holds w (Walk.leaveAll scopes n vs) (Walk.leaveAll scopes n vs)
      fun _ nodes => ∀ x ∈ nodes, x.Has T := by
  induction vs generalizing w n with
  | nil => exact leaveAll_nil hn
  | cons v vs ih =>
    rw [List.forall_mem_cons] at h
    exact leaveAll_cons (h.1.leave w scopes n hn) fun w' n' hn' => ih h.2 hn'

theorem visitors_of_keeps [LawfulMonad m] (h : ∀ v ∈ vs, L.Keeps T v) :
    L.Visitors (.refining T T T fun _ ha => ha) vs vs := by
  refine visitors_refining (fun w scopes n hn => ?_) fun w scopes n hn => ?_
  · exact L.weaken (enterAll_kept h hn) fun w' e _ he => he.imp fun x hx => Node.has_iff.mp hx
  · exact leaveAll_kept h (Node.has_iff.mpr hn)

end Lockstep

namespace Pass

variable {T T' : Trait} {r : Resolver}

section Prepare

variable {L : Lockstep W WalkM}

theorem Opens.has {n m : Node} (hT : T.OfCode) (h : Opens n (some m)) (hn : n.Has T) : m.Has T := by
  cases h with
  | other => exact hn
  | element split =>
    obtain ⟨hmore, hrest⟩ := has_splitAttrs split hn.below.2
    have hattrs := List.forall_mem_append.mpr ⟨hn.below.1, hmore⟩
    exact Node.has_withParts (Node.has_iff.mp hn).1 hattrs hrest
  | block split | stack split | push split =>
    have hrest := (has_splitAttrs split hn.below.2).2
    exact Node.has_iff.mpr ⟨hT _ rfl, List.forall_mem_nil _, hrest⟩

theorem prepare_keeps (hT : T.OfCode) (r : Resolver) :
    L.Visitors (.refining T T T fun _ ha => ha) (prepare.map fun pass => pass r)
      (prepare.map fun pass => pass r) := by
  refine Lockstep.visitors_refining (fun w scopes n hn => ?_) fun w scopes n hn => ?_
  · exact entering_holds (entering_prepare r scopes n) fun m hm => Node.has_iff.mp (hm.has hT hn)
  · rw [prepare_leave]
    exact L.ofPure (List.forall_mem_singleton.mpr (Node.has_iff.mpr hn))

end Prepare

section Transform

variable {L : Lockstep W LoadM}

theorem imports_keeps (hT : T.OfCode) (hattach : ∀ o, T.Attaches o T) (hr : Gives L T r) :
    (L.withState fun _ _ => True).Keeps T (imports r) := by
  refine ⟨fun w scopes n hn => ?_, fun w scopes n hn => ?_⟩
  · refine Lockstep.weaken (imports_links (fun _ _ ht => ht) fun _ => trivial) fun w' e _ he => ?_
    refine he.ends fun m hm => ?_
    cases hm with
    | same => exact hn
    | fragment => exact Node.has_iff.mpr ⟨hT _ rfl, hn.below⟩
  · exact imports_leave hattach hr (.inl (Node.has_iff.mp hn).1) hn.below

theorem extension_keeps (hT : T.OfCode) (strict : Bool) (hattach : ∀ o, T.Attaches o T)
    (hr : Gives L T r) : (L.withState fun _ _ => True).Keeps T (extension strict r) := by
  refine ⟨fun w scopes n hn => Lockstep.ofPure _ ⟨hn, rfl⟩, fun w scopes n hn => ?_⟩
  exact extension_leave strict (fun _ _ => hT _ rfl) hattach hr hn

theorem transform_keeps (hT : T.OfCode) (strict : Bool) (hattach : ∀ o, T.Attaches o T)
    (hr : Gives L T r) : (L.withState fun _ _ => True).Visitors
      (.refining T T T fun _ ha => ha)
      ((transform strict).map fun pass => pass r) ((transform strict).map fun pass => pass r) := by
  refine Lockstep.visitors_of_keeps ?_
  simp only [transform, List.map_cons, List.map_nil, List.forall_mem_cons]
  exact ⟨imports_keeps hT hattach hr, extension_keeps hT strict hattach hr, List.forall_mem_nil _⟩

end Transform

section Finalize

variable {directives : Directives}

/-- Code with the one trait becomes code with the other, and what is not code has both. -/
structure Expands (directives : Directives) (T T' : Trait) : Prop where
  element : ∀ name attrs children closing o, T.node (.tag name attrs children closing o) →
    T'.node (.tag name attrs children closing o)
  attr : ∀ a, T.attr a → T'.attr a
  host : ∀ code o, T.node (.host code o) → T'.node (.host code o)
  echo : ∀ expr escape o, T.node (.echo expr escape o) →
    T'.node (.host (echoCode (onChars trim expr) escape) o)
  directive : ∀ name values body o code, T.node (.directive name values body o) →
    directives.expand ⟨name, values, body, o⟩ = .ok code → T'.node (.host code o)

theorem Expands.finishes (hT : T.OfCode) (hT' : T'.OfCode) (he : Expands directives T T') :
    Finishes directives T T' := by
  refine ⟨fun _ _ => hT _ rfl, he.attr, fun _ _ => hT' _ rfl, fun n hn _ => ?_, he.echo,
    he.directive⟩
  cases n with
  | directive | echo => trivial
  | tag => exact he.element _ _ _ _ _ hn
  | host code o => exact he.host code o hn
  | _ => exact hT' _ rfl

end Finalize

end Pass

end Lamina
