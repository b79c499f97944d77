import Lamina.Proofs.Node.Origins
import Lamina.Proofs.Walk.Lockstep

/-! Walks that keep a property of origins. A pass is steady if it depends on other templates through
its resolver alone and brings in no origin but those of the tree it walks and of what the resolver
gives it, the latter as seen from the reference. -/

namespace Lamina

variable {W : Type} [Preorder W]

structure Standing (W : Type) [Preorder W] where
  holds : W → Origin → Prop
  later : ∀ {w w' o}, w ≤ w' → holds w o → holds w' o

theorem Node.Sited.later {P : Standing W} {w w' : W} {n : Node} (h : n.Sited (P.holds w))
    (hw : w ≤ w') : n.Sited (P.holds w') :=
  h.imp fun _ => P.later hw

/-- The contract of a walk that meets and leaves sited nodes only. -/
def Contract.sited (P : Standing W) : Contract W where
  enters w _ n := n.Sited (P.holds w)
  opens w _ n := n.Sited (P.holds w)
  closes w _ n := n.Sited (P.holds w)
  leaves w _ n := n.Sited (P.holds w)
  enters_later hw h := h.later hw
  opens_later hw h := h.later hw
  leaves_later hw h := h.later hw
  leaf h _ := h
  child h _ := (Node.sited_iff.mp h).2.2
  inner h _ a ha := ((Node.sited_iff.mp h).2.1 a ha).2
  rebuilt h _ hattrs hc := by
    obtain ⟨hn, ha, -⟩ := Node.has_iff.mp (Node.sited_iff_has.mp h)
    simp only [Node.sited_iff_has] at hattrs hc ⊢
    exact Node.has_withParts hn (Attr.has_of_rewritten hattrs fun a hm => (ha a hm).1) hc

def Entered.Sited (P : Standing W) {n : Node} (w : W) : Entered n → Prop
  | keep node _ _ => node.Sited (P.holds w)
  | replace nodes => ∀ x ∈ nodes, x.Sited (P.holds w)

def Left.Sited (P : Standing W) (w : W) : Left → Prop
  | keep node => node.Sited (P.holds w)
  | replace nodes => ∀ x ∈ nodes, x.Sited (P.holds w)

namespace Lockstep

variable {m : Type → Type} [Monad m] [MonadExceptOf Failure m] {admits : W → Failure → Prop}

structure Alike (L : Lockstep W m admits) (P : Standing W) (v v' : Visitor m) : Prop where
  enter : ∀ w scopes n, n.Sited (P.holds w) →
    L.holds w (v.enter scopes n) (v'.enter scopes n) (Entered.Sited P)
  leave : ∀ w scopes n, n.Sited (P.holds w) →
    L.holds w (v.leave scopes n) (v'.leave scopes n) (Left.Sited P)

variable {L : Lockstep W m admits} {P : Standing W}

theorem enterAll_sited {vs vs' : List (Visitor m)} (h : List.Forall₂ (L.Alike P) vs vs') (w : W)
    (scopes : List Scope) (n : Node) (hn : n.Sited (P.holds w)) :
    L.holds w (Walk.enterAll scopes n vs) (Walk.enterAll scopes n vs')
      ((Contract.sited P).Entered scopes) := by
  induction h generalizing w n with
  | nil => exact L.ofPure ⟨hn, nofun⟩
  | cons hv _ ih =>
    refine L.ofBind (hv.enter w scopes n hn) fun w₁ e hw he => ?_
    cases e with
    | replace nodes => exact L.ofPure he
    | keep n' light descend =>
      refine L.ofBind (ih w₁ n' he) fun w₂ e' _ he' => ?_
      cases e' with
      | replace nodes => exact L.ofPure he'
      | keep n'' light' descend' => exact L.ofPure ⟨he'.1, fun _ => he'.1⟩

theorem leaveAll_sited {vs vs' : List (Visitor m)} (h : List.Forall₂ (L.Alike P) vs vs') (w : W)
    (scopes : List Scope) (n : Node) (hn : n.Sited (P.holds w)) :
    L.holds w (Walk.leaveAll scopes n vs) (Walk.leaveAll scopes n vs')
      ((Contract.sited P).Leaves scopes) := by
  induction h generalizing w n with
  | nil => exact L.ofPure (List.forall_mem_singleton.mpr hn)
  | cons hv _ ih =>
    refine L.ofBind (hv.leave w scopes n hn) fun w₁ e hw he => ?_
    cases e with
    | replace nodes => exact L.ofPure he
    | keep n' => exact ih w₁ n' he

theorem root_sited [LawfulMonad m] {vs vs' : List (Visitor m)}
    (h : List.Forall₂ (L.Alike P) vs vs') (w : W) (n : Node) (hn : n.Sited (P.holds w)) :
    L.holds w (Walk.root vs n) (Walk.root vs' n) fun w' r => r.Sited (P.holds w') := by
  have hvisitors : L.Visitors (Contract.sited P) vs vs' := ⟨enterAll_sited h, leaveAll_sited h⟩
  have ho := (Node.sited_iff.mp hn).1
  refine L.weaken (L.walk_root hvisitors w n hn) fun w' r hw hr => ?_
  rcases hr with hr | ⟨nodes, rfl, hl⟩
  · exact hr
  · exact Node.sited_iff.mpr ⟨P.later hw ho, nofun, hl⟩

/-- Two resolvers that do alike and give trees that are sited once attached to their reference. -/
structure Resolvers (L : Lockstep W LoadM admits) (P : Standing W) (r r' : Resolver) : Prop where
  load : ∀ w path o, P.holds w o → L.holds w (r.load path o) (r'.load path o)
    fun w' n => n.Sited fun o' => P.holds w' (o'.attach o)
  fragment : ∀ w path o, P.holds w o → L.holds w (r.fragment path o) (r'.fragment path o)
    fun w' n => n.Sited fun o' => P.holds w' (o'.attach o)

end Lockstep

def Notes.Sited (P : Standing W) (w : W) (notes : Notes) : Prop :=
  ∀ c ∈ notes.contributions, ∀ n ∈ c.nodes, n.Sited (P.holds w)

theorem Notes.Sited.later {P : Standing W} {w w' : W} {notes : Notes} (hw : w ≤ w')
    (h : notes.Sited P w) : notes.Sited P w' :=
  fun c hc n hn => (h c hc n hn).later hw

inductive Failure.At (o : Origin) : Failure → Prop
  | parse (fault : ParseFault) : At o (.parse fault o.path o.line none)
  | merge (fault : MergeFault) : At o (.merge fault o.path o.line)
  | directive (fault : DirectiveFault) : At o (.directive fault o.path o.line)

def Standing.Bears (P : Standing W) (admits : W → Failure → Prop) : Prop :=
  ∀ ⦃w o failure⦄, P.holds w o → Failure.At o failure → admits w failure

theorem Standing.bears (P : Standing W) : P.Bears fun _ _ => True :=
  fun _ _ _ _ _ => trivial

/-- Whatever is kept true of origins, the pass does alike with resolvers that do alike, and where it
fails by itself, it does at such an origin. -/
def Pass.Steady (pass : Pass) : Prop :=
  ∀ {W : Type} [Preorder W] {admits : W → Failure → Prop} (L : Lockstep W LoadM admits)
    (P : Standing W) {r r' : Resolver}, P.Bears admits → L.Resolvers P r r' →
      (L.withState (Notes.Sited P)).Alike P (pass r) (pass r')

end Lamina
