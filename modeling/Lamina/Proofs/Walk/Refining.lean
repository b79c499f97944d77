import Lamina.Proofs.Node.Trait
import Lamina.Proofs.Walk.Lockstep

/-! Walks that refine a tree. What is known of every node before the walk gives way to something
else that is known of every node after it; the visitors of a walk are looked at one by one. -/

namespace Lamina

variable {W : Type} [Preorder W]

namespace Node

theorem mem_of_mem_withParts {n : Node} {attrs : List (Attr Node)} {children : List Node} :
    (∀ a ∈ (n.withParts attrs children).attrs, a ∈ attrs) ∧
      ∀ c ∈ (n.withParts attrs children).children, c ∈ children := by
  cases n <;> simp [withParts, Node.attrs, Node.children, children?]

def HasBelow (T : Trait) (n : Node) : Prop :=
  (∀ a ∈ n.attrs, a.Has T) ∧ ∀ c ∈ n.children, c.Has T

theorem Has.below {T : Trait} {n : Node} (h : n.Has T) : n.HasBelow T := (has_iff.mp h).2

end Node

/-- The walk comes to nodes of trait `T` and leaves nodes of trait `T'`; in between a construct has
trait `R` once the visitors have entered it. -/
def Contract.refining (T R T' : Trait) (hattr : ∀ a, T.attr a → T'.attr a) : Contract W where
  enters _ _ n := n.Has T
  opens _ _ n := R.node n ∧ n.HasBelow T
  closes _ _ n := R.node n ∧ n.HasBelow T'
  leaves _ _ n := n.Has T'
  enters_later _ h := h
  opens_later _ h := h
  leaves_later _ h := h
  leaf {_ _ n} h hs := by
    refine ⟨h.1, ?_, ?_⟩
    · cases n <;> simp_all [Scope.of?, Node.attrs]
    · cases n <;> simp_all [Scope.of?, Node.children, Node.children?]
  child h _ := h.2.2
  inner h _ a ha := (h.2.1 a ha).2
  rebuilt h _ hattrs hc := by
    have hrewritten := Attr.has_of_rewritten hattrs fun a ha => hattr a (h.2.1 a ha).1
    refine ⟨R.parts _ _ h.1, fun a ha => ?_, fun c hm => ?_⟩
    · exact hrewritten a (Node.mem_of_mem_withParts.1 a ha)
    · exact hc c (Node.mem_of_mem_withParts.2 c hm)

/-- A node with `A` stays, below which the walk goes, or nodes with `B` take its place. -/
def Entered.Ends (A B : Node → Prop) {n : Node} : Entered n → Prop
  | keep node _ descend => A node ∧ descend = true
  | replace nodes => ∀ x ∈ nodes, B x

def Left.Ends (A B : Node → Prop) : Left → Prop
  | keep node => A node
  | replace nodes => ∀ x ∈ nodes, B x

theorem Entered.Ends.imp {A A' B : Node → Prop} {n : Node} {e : Entered n} (h : e.Ends A B)
    (hA : ∀ x, A x → A' x) : e.Ends A' B := by
  cases e with
  | keep node light descend => exact ⟨hA node h.1, h.2⟩
  | replace nodes => exact h

namespace Lockstep

variable {m : Type → Type} [Monad m] [MonadExceptOf Failure m] {L : Lockstep W m}
  {A A' B : Node → Prop} {v : Visitor m} {vs : List (Visitor m)} {w : W} {scopes : List Scope}
  {n : Node}

theorem enterAll_nil (h : A n) :
    L.holds w (Walk.enterAll scopes n []) (Walk.enterAll scopes n []) fun _ => Entered.Ends A B :=
  L.ofPure ⟨h, rfl⟩

theorem enterAll_cons
    (hv : L.holds w (v.enter scopes n) (v.enter scopes n) fun _ => Entered.Ends A B)
    (hvs : ∀ w' n', A n' → L.holds w' (Walk.enterAll scopes n' vs) (Walk.enterAll scopes n' vs)
      fun _ => Entered.Ends A' B) :
    L.holds w (Walk.enterAll scopes n (v :: vs)) (Walk.enterAll scopes n (v :: vs))
      fun _ => Entered.Ends A' B := by
  refine L.ofBind hv fun w₁ entered _ hentered => ?_
  cases entered with
  | replace nodes => exact L.ofPure hentered
  | keep n' light descend =>
    obtain ⟨hn', rfl⟩ := hentered
    refine L.ofBind (hvs w₁ n' hn') fun w₂ entered' _ hentered' => ?_
    cases entered' with
    | replace nodes => exact L.ofPure hentered'
    | keep n'' light' descend' => exact L.ofPure ⟨hentered'.1, by rw [hentered'.2]; rfl⟩

theorem enterAll_go (hvs : ∀ v ∈ vs, ∀ n, v.enter scopes n = pure (.go n)) (h : A n) :
    L.holds w (Walk.enterAll scopes n vs) (Walk.enterAll scopes n vs)
      fun _ => Entered.Ends A B := by
  induction vs generalizing w n with
  | nil => exact enterAll_nil h
  | cons v vs ih =>
    rw [List.forall_mem_cons] at hvs
    refine enterAll_cons (A := A) ?_ fun w' n' h' => ih hvs.2 h'
    rw [hvs.1]
    exact L.ofPure ⟨h, rfl⟩

theorem leaveAll_nil (h : B n) :
    L.holds w (Walk.leaveAll scopes n []) (Walk.leaveAll scopes n []) fun _ nodes =>
      ∀ x ∈ nodes, B x :=
  L.ofPure (List.forall_mem_singleton.mpr h)

theorem leaveAll_cons
    (hv : L.holds w (v.leave scopes n) (v.leave scopes n) fun _ => Left.Ends A B)
    (hvs : ∀ w' n', A n' → L.holds w' (Walk.leaveAll scopes n' vs) (Walk.leaveAll scopes n' vs)
      fun _ nodes => ∀ x ∈ nodes, B x) :
    L.holds w (Walk.leaveAll scopes n (v :: vs)) (Walk.leaveAll scopes n (v :: vs))
      fun _ nodes => ∀ x ∈ nodes, B x := by
  refine L.ofBind hv fun w₁ left _ hleft => ?_
  cases left with
  | replace nodes => exact L.ofPure hleft
  | keep n' => exact hvs w₁ n' hleft

theorem visitors_refining [LawfulMonad m] {T R T' : Trait} {hattr : ∀ a, T.attr a → T'.attr a}
    (henter : ∀ w scopes n, n.Has T → L.holds w (Walk.enterAll scopes n vs)
      (Walk.enterAll scopes n vs)
      fun _ => Entered.Ends (fun x => R.node x ∧ x.HasBelow T) (Node.Has T'))
    (hleave : ∀ w scopes n, R.node n ∧ n.HasBelow T' → L.holds w (Walk.leaveAll scopes n vs)
      (Walk.leaveAll scopes n vs) fun _ nodes => ∀ x ∈ nodes, x.Has T') :
    L.Visitors (.refining T R T' hattr) vs vs := by
  refine ⟨fun w scopes n hn => ?_, hleave⟩
  refine L.weaken (henter w scopes n hn) fun w' e _ he => ?_
  cases e with
  | replace nodes => exact he
  | keep node light descend =>
    obtain ⟨hnode, rfl⟩ := he
    exact ⟨hnode, fun h => Bool.noConfusion h⟩

end Lockstep

end Lamina
