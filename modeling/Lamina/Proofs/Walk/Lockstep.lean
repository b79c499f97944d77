import Lamina.Proofs.Node.Parts
import Lamina.Session
import Mathlib.Data.List.Forall2
import Mathlib.Order.Basic

/-! Walks in lockstep. Two walks over one tree whose visitors do alike at every node do alike on the
whole, and what the visitors keep true of single nodes is true of the nodes that come out. What is
true may depend on how far a build has come, and stays true as it goes on. -/

namespace Lamina

/-- A comparison of computations step by step: `holds w x y Q` says that `y`, started at the stage
`w`, does as `x` does, and that `Q` is true of the stage and the result it ends with. They may fail
as `admits` has it, which by default is in any way. -/
structure Lockstep (W : Type) [Preorder W] (m : Type → Type) [Monad m] [MonadExceptOf Failure m]
    (admits : W → Failure → Prop := fun _ _ => True) where
  holds : {α : Type} → W → m α → m α → (W → α → Prop) → Prop
  ofPure : ∀ {α : Type} {w : W} {a : α} {Q : W → α → Prop}, Q w a → holds w (pure a) (pure a) Q
  ofBind : ∀ {α β : Type} {w : W} {x y : m α} {f g : α → m β} {Q : W → α → Prop}
    {R : W → β → Prop}, holds w x y Q →
    (∀ w' a, w ≤ w' → Q w' a → holds w' (f a) (g a) R) → holds w (x >>= f) (y >>= g) R
  ofFailure : ∀ {α : Type} {w : W} {failure : Failure} {Q : W → α → Prop}, admits w failure →
    holds w (throw failure) (throw failure) Q

/-- What a walk promises at its four turns: of a node when it comes to it, when the visitors have
entered it, when everything below it is done, and of what comes out in its place. -/
structure Contract (W : Type) [Preorder W] where
  enters : W → List Scope → Node → Prop
  opens : W → List Scope → Node → Prop
  closes : W → List Scope → Node → Prop
  leaves : W → List Scope → Node → Prop
  enters_later : ∀ {w w' scopes n}, w ≤ w' → enters w scopes n → enters w' scopes n
  opens_later : ∀ {w w' scopes n}, w ≤ w' → opens w scopes n → opens w' scopes n
  leaves_later : ∀ {w w' scopes n}, w ≤ w' → leaves w scopes n → leaves w' scopes n
  leaf : ∀ {w scopes n}, opens w scopes n → Scope.of? n = none → closes w scopes n
  child : ∀ {w scopes n scope}, opens w scopes n → Scope.of? n = some scope →
    ∀ c ∈ n.children, enters w (scopes ++ [scope]) c
  inner : ∀ {w scopes n scope}, opens w scopes n → Scope.of? n = some scope →
    ∀ a ∈ n.attrs, ∀ c ∈ a.value.inner, enters w (scopes ++ [scope] ++ [.attr a.name]) c
  rebuilt : ∀ {w scopes n scope attrs children}, opens w scopes n → Scope.of? n = some scope →
    List.Forall₂ (fun a b => ∃ nodes, b = { a with value := a.value.withInner nodes } ∧
      ∀ c ∈ nodes, leaves w (scopes ++ [scope] ++ [.attr a.name]) c) n.attrs attrs →
    (∀ c ∈ children, leaves w (scopes ++ [scope]) c) →
    closes w scopes (n.withParts attrs children)

namespace Contract

variable {W : Type} [Preorder W]

/-- The outcome of entering a node as the contract has it; where the walk does not go below, the
node counts as done. -/
def Entered (C : Contract W) (scopes : List Scope) {n : Node} (w : W) : Entered n → Prop
  | .keep node _ descend => C.opens w scopes node ∧ (descend = false → C.closes w scopes node)
  | .replace nodes => ∀ x ∈ nodes, C.leaves w scopes x

def Leaves (C : Contract W) (scopes : List Scope) (w : W) (nodes : List Node) : Prop :=
  ∀ x ∈ nodes, C.leaves w scopes x

def Rewrites (C : Contract W) (scopes : List Scope) (w : W) (a b : Attr Node) : Prop :=
  ∃ nodes, b = { a with value := a.value.withInner nodes } ∧
    C.Leaves (scopes ++ [.attr a.name]) w nodes

theorem Leaves.later {C : Contract W} {scopes : List Scope} {w w' : W} {nodes : List Node}
    (h : C.Leaves scopes w nodes) (hw : w ≤ w') : C.Leaves scopes w' nodes :=
  fun x hx => C.leaves_later hw (h x hx)

theorem Rewrites.later {C : Contract W} {scopes : List Scope} {w w' : W} {a b : Attr Node}
    (h : C.Rewrites scopes w a b) (hw : w ≤ w') : C.Rewrites scopes w' a b := by
  obtain ⟨nodes, hb, hn⟩ := h
  exact ⟨nodes, hb, hn.later hw⟩

end Contract

namespace Lockstep

variable {W : Type} [Preorder W] {m : Type → Type} [Monad m] [MonadExceptOf Failure m]
  {admits : W → Failure → Prop}

theorem ofThrow (L : Lockstep W m) {α : Type} {w : W} {failure : Failure} {Q : W → α → Prop} :
    L.holds w (throw failure) (throw failure) Q :=
  L.ofFailure trivial

structure Visitors (L : Lockstep W m admits) (C : Contract W) (vs ws : List (Visitor m)) : Prop where
  enter : ∀ w scopes n, C.enters w scopes n →
    L.holds w (Walk.enterAll scopes n vs) (Walk.enterAll scopes n ws) (C.Entered scopes)
  leave : ∀ w scopes n, C.closes w scopes n →
    L.holds w (Walk.leaveAll scopes n vs) (Walk.leaveAll scopes n ws) (C.Leaves scopes)

variable {L : Lockstep W m admits} {C : Contract W} {vs ws : List (Visitor m)}

theorem weaken [LawfulMonad m] {α : Type} {w : W} {x y : m α} {Q R : W → α → Prop}
    (h : L.holds w x y Q) (hQR : ∀ w' a, w ≤ w' → Q w' a → R w' a) : L.holds w x y R := by
  rw [← bind_pure x, ← bind_pure y]
  exact L.ofBind h fun w' a hw ha => L.ofPure (hQR w' a hw ha)

def Walks (L : Lockstep W m admits) (C : Contract W) (vs ws : List (Visitor m)) (n : Node) : Prop :=
  ∀ w scopes, C.enters w scopes n →
    L.holds w (Walk.node vs scopes n) (Walk.node ws scopes n) (C.Leaves scopes)

section Walk

variable {w : W} {scopes : List Scope}

theorem walk_list {nodes : List Node} (hwalks : ∀ n ∈ nodes, L.Walks C vs ws n)
    (hn : ∀ n ∈ nodes, C.enters w scopes n) :
    L.holds w (Walk.list vs scopes nodes) (Walk.list ws scopes nodes) (C.Leaves scopes) := by
  induction nodes generalizing w with
  | nil =>
    rw [Walk.list, Walk.list]
    exact L.ofPure (List.forall_mem_nil _)
  | cons n nodes ih =>
    rw [List.forall_mem_cons] at hwalks hn
    rw [Walk.list, Walk.list]
    refine L.ofBind (hwalks.1 w scopes hn.1) fun w₁ first hw₁ hf => ?_
    have hrest := ih hwalks.2 fun x hx => C.enters_later hw₁ (hn.2 x hx)
    refine L.ofBind hrest fun w₂ more hw₂ hm => L.ofPure ?_
    exact List.forall_mem_append.mpr ⟨hf.later hw₂, hm⟩

variable [LawfulMonad m]

theorem walk_attrs {attrs : List (Attr Node)}
    (hwalks : ∀ a ∈ attrs, ∀ c ∈ a.value.inner, L.Walks C vs ws c)
    (hn : ∀ a ∈ attrs, ∀ c ∈ a.value.inner, C.enters w (scopes ++ [.attr a.name]) c) :
    L.holds w (Walk.attrList vs scopes attrs) (Walk.attrList ws scopes attrs)
      (fun w' => List.Forall₂ (C.Rewrites scopes w') attrs) := by
  induction attrs generalizing w with
  | nil =>
    rw [Walk.attrList, Walk.attrList]
    exact L.ofPure .nil
  | cons a attrs ih =>
    rw [List.forall_mem_cons] at hwalks hn
    rw [Walk.attrList_cons, Walk.attrList_cons]
    refine L.ofBind (walk_list hwalks.1 hn.1) fun w₁ nodes hw₁ hl => ?_
    have hrest := ih hwalks.2 fun a ha c hc => C.enters_later hw₁ (hn.2 a ha c hc)
    refine L.ofBind hrest fun w₂ more hw₂ hm => L.ofPure ?_
    exact .cons ⟨nodes, rfl, hl.later hw₂⟩ hm

theorem walk_below {n : Node} (hattrs : ∀ a ∈ n.attrs, ∀ c ∈ a.value.inner, L.Walks C vs ws c)
    (hchildren : ∀ c ∈ n.children, L.Walks C vs ws c) (hn : C.opens w scopes n) :
    L.holds w (Walk.below vs scopes n) (Walk.below ws scopes n) (C.closes · scopes) := by
  rw [Walk.below_eq, Walk.below_eq]
  cases hs : Scope.of? n with
  | none => exact L.ofPure (C.leaf hn hs)
  | some scope =>
    refine L.ofBind (walk_attrs hattrs (C.inner hn hs)) fun w₁ attrs hw₁ hrewritten => ?_
    have hn₁ := C.opens_later hw₁ hn
    refine L.ofBind (walk_list hchildren (C.child hn₁ hs)) fun w₂ children hw₂ hleaves => ?_
    have hrewritten₂ := hrewritten.imp fun _ _ hab => Contract.Rewrites.later hab hw₂
    exact L.ofPure (C.rebuilt (C.opens_later hw₂ hn₁) hs hrewritten₂ hleaves)

theorem walk_node (h : L.Visitors C vs ws) (n : Node) : L.Walks C vs ws n := by
  induction n using Node.byLighter with
  | parts n ih =>
    intro w scopes hn
    rw [Walk.node, Walk.node]
    refine L.ofBind (h.enter w scopes n hn) fun w' entered hw he => ?_
    cases entered with
    | replace nodes => exact L.ofPure he
    | keep node light descend =>
      obtain ⟨hattrs, hchildren⟩ := ih node light
      have hleave := fun w'' n' (_ : w' ≤ w'') hc => h.leave w'' scopes n' hc
      cases descend with
      | false => exact L.ofBind (L.ofPure (he.2 rfl)) hleave
      | true => exact L.ofBind (walk_below hattrs hchildren he.1) hleave

/-- A walk from the root gives one template: the one that came out, or a new one around whatever
came out. -/
theorem walk_root (h : L.Visitors C vs ws) (w : W) (n : Node) (hn : C.enters w [] n) :
    L.holds w (Walk.root vs n) (Walk.root ws n) fun w' r =>
      C.leaves w' [] r ∨ ∃ nodes, r = .template nodes n.origin ∧ C.Leaves [] w' nodes := by
  refine L.ofBind (walk_node h n w [] hn) fun w' nodes _ hl => ?_
  split
  · exact L.ofPure (.inl (hl _ (.head _)))
  · exact L.ofPure (.inr ⟨_, rfl, hl⟩)

end Walk

/-- Computations with a state of their own, which is right for the stage at every step. -/
def withState {σ : Type} (L : Lockstep W m admits) (J : W → σ → Prop) :
    Lockstep W (StateT σ m) admits where
  holds w x y Q := ∀ t, J w t → L.holds w (x.run t) (y.run t) fun w' r => Q w' r.1 ∧ J w' r.2
  ofPure hQ _ ht := L.ofPure ⟨hQ, ht⟩
  ofBind hx hf t ht := L.ofBind (hx t ht) fun w' r hw hr => hf w' r.1 hw hr.1 r.2 hr.2
  ofFailure h _ _ := L.ofBind (Q := fun _ _ => False) (L.ofFailure h) fun _ _ _ h => h.elim

section State

variable {σ : Type} {J : W → σ → Prop} {w : W}

theorem ofGet : (L.withState J).holds w get get J := fun _ ht => L.ofPure ⟨ht, ht⟩

theorem ofModify {f : σ → σ} (hf : ∀ t, J w t → J w (f t)) :
    (L.withState J).holds w (modify f) (modify f) fun _ _ => True :=
  fun t ht => L.ofPure ⟨trivial, hf t ht⟩

theorem ofLift (later : ∀ {w w' t}, w ≤ w' → J w t → J w' t) {α : Type} {x y : m α}
    {Q : W → α → Prop} (h : L.holds w x y Q) :
    (L.withState J).holds w (liftM x) (liftM y) Q :=
  fun _ ht => L.ofBind h fun _ _ hw ha => L.ofPure ⟨ha, later hw ht⟩

end State

end Lockstep

end Lamina
