import Lamina.Proofs.Node.Bare
import Lamina.Proofs.Session

/-! Walks over trees that are the same when bare. If the visitors of two walks do alike at all nodes
that look the same, and do not mind the session, one walk succeeds where the other one does. -/

namespace Lamina

/-- Where `x` succeeds, `y` does with a like result and with the same notes, from any session and
without a change to it. -/
def Imitates {α β : Type} (Q : α → β → Prop) (x : WalkM α) (y : WalkM β) : Prop :=
  ∀ notes s a notes' s', (x.run notes).run s = (.ok (a, notes'), s') →
    ∃ b, Q a b ∧ ∀ t, (y.run notes).run t = (.ok (b, notes'), t)

namespace Imitates

variable {α β γ δ : Type} {Q : α → β → Prop} {R : γ → δ → Prop}

theorem ofPure {a : α} {b : β} (h : Q a b) : Imitates Q (pure a) (pure b) := by
  intro notes s a' notes' s' hr
  cases hr
  exact ⟨b, h, fun _ => rfl⟩

theorem ofThrow {failure : Failure} {y : WalkM β} :
    Imitates Q (throw failure : WalkM α) y := by
  intro notes s a notes' s' hr
  cases hr

theorem ofBind {x : WalkM α} {y : WalkM β} {f : α → WalkM γ} {g : β → WalkM δ}
    (hx : Imitates Q x y) (hf : ∀ a b, Q a b → Imitates R (f a) (g b)) :
    Imitates R (x >>= f) (y >>= g) := by
  intro notes s c notes' s' hr
  rw [StateT.run_bind] at hr
  obtain ⟨⟨a, notes₁⟩, s₁, hxr, hfr⟩ := run_bind_eq_ok.mp hr
  obtain ⟨b, hab, hy⟩ := hx notes s a notes₁ s₁ hxr
  obtain ⟨d, hcd, hg⟩ := hf a b hab notes₁ s₁ c notes' s' hfr
  refine ⟨d, hcd, fun t => ?_⟩
  rw [StateT.run_bind]
  exact run_bind_eq_ok.mpr ⟨(b, notes₁), t, hy t, hg t⟩

theorem ofGet : Imitates (fun notes notes' => notes = notes') get get := by
  intro notes s a notes' s' hr
  cases hr
  exact ⟨notes, rfl, fun _ => rfl⟩

theorem ofModify (f : Notes → Notes) : Imitates (fun _ _ => True) (modify f) (modify f) := by
  intro notes s a notes' s' hr
  cases hr
  exact ⟨⟨⟩, trivial, fun _ => rfl⟩

theorem ofLift {x : LoadM α} {y : LoadM β}
    (h : ∀ s a s', x.run s = (.ok a, s') → ∃ b, Q a b ∧ ∀ t, y.run t = (.ok b, t)) :
    Imitates Q (liftM x) (liftM y) := by
  intro notes s a notes' s' hr
  obtain ⟨_, _, hx, hr⟩ := run_bind_eq_ok.mp hr
  cases hr
  obtain ⟨b, hab, hy⟩ := h s a s' hx
  exact ⟨b, hab, fun t => run_bind_eq_ok.mpr ⟨b, t, hy t, rfl⟩⟩

end Imitates

def Entered.Alike (O : List Node → List Node → Prop) {n n' : Node} : Entered n → Entered n' → Prop
  | keep node _ descend, keep node' _ descend' =>
    node.bare = node'.bare ∧ descend = true ∧ descend' = true
  | replace nodes, replace nodes' => O nodes nodes'
  | _, _ => False

def Attr.Walked (O : List Node → List Node → Prop) (a a' : Attr Node) : Prop :=
  ∃ b b' nodes nodes', Node.bareAttr b = Node.bareAttr b' ∧ O nodes nodes' ∧
    a = { b with value := b.value.withInner nodes } ∧
    a' = { b' with value := b'.value.withInner nodes' }

theorem Attr.bare_walked {attrs attrs' : List (Attr Node)} (h : List.Forall₂
      (Attr.Walked fun nodes nodes' => nodes.map Node.bare = nodes'.map Node.bare) attrs attrs') :
    attrs.map Node.bareAttr = attrs'.map Node.bareAttr := by
  induction h with
  | nil => rfl
  | cons hwalked _ ih =>
    obtain ⟨b, b', nodes, nodes', hb, hnodes, rfl, rfl⟩ := hwalked
    rw [List.map_cons, List.map_cons, ih, Node.bareAttr_withInner, Node.bareAttr_withInner, hb, hnodes]

/-- Visitors that do alike at nodes of the same look: `C` is what two nodes have in common when
everything below them is done, and `O` what comes out in their place. -/
structure Imitation (C : Node → Node → Prop) (O : List Node → List Node → Prop)
    (vs ws : List (Visitor WalkM)) : Prop where
  enter : ∀ {scopes scopes' : List Scope} {n n' : Node}, scopes.length = scopes'.length →
    n.bare = n'.bare →
    Imitates (Entered.Alike O) (Walk.enterAll scopes n vs) (Walk.enterAll scopes' n' ws)
  leave : ∀ {scopes scopes' : List Scope} {n n' : Node}, scopes.length = scopes'.length →
    0 < scopes.length → C n n' →
    Imitates O (Walk.leaveAll scopes n vs) (Walk.leaveAll scopes' n' ws)
  nil : O [] []
  append : ∀ {l l' m m' : List Node}, O l l' → O m m' → O (l ++ m) (l' ++ m')
  rebuilt : ∀ {n n' : Node} {attrs attrs' : List (Attr Node)} {children children' : List Node},
    n.bare = n'.bare → List.Forall₂ (Attr.Walked O) attrs attrs' → O children children' →
    C (n.withParts attrs children) (n'.withParts attrs' children')

namespace Imitation

variable {C : Node → Node → Prop} {O : List Node → List Node → Prop} {vs ws : List (Visitor WalkM)}
  {scopes scopes' : List Scope}

/-- The walk over the first tree is imitated by the walk over any tree of the same look. -/
def Walks (O : List Node → List Node → Prop) (vs ws : List (Visitor WalkM)) (n : Node) : Prop :=
  ∀ scopes scopes' n', scopes.length = scopes'.length → 0 < scopes.length → n.bare = n'.bare →
    Imitates O (Walk.node vs scopes n) (Walk.node ws scopes' n')

theorem walk_list (h : Imitation C O vs ws) (hs : scopes.length = scopes'.length)
    (hpos : 0 < scopes.length) {nodes nodes' : List Node} (hn : ∀ n ∈ nodes, Walks O vs ws n)
    (hbare : nodes.map Node.bare = nodes'.map Node.bare) :
    Imitates O (Walk.list vs scopes nodes) (Walk.list ws scopes' nodes') := by
  induction nodes generalizing nodes' with
  | nil =>
    obtain rfl : nodes' = [] := List.map_eq_nil_iff.mp hbare.symm
    rw [Walk.list, Walk.list]
    exact .ofPure h.nil
  | cons n nodes ih =>
    cases nodes' with
    | nil => cases hbare
    | cons n' nodes' =>
      rw [List.map_cons, List.map_cons, List.cons.injEq] at hbare
      rw [List.forall_mem_cons] at hn
      rw [Walk.list, Walk.list]
      refine .ofBind (hn.1 scopes scopes' n' hs hpos hbare.1) fun first first' hfirst => ?_
      refine .ofBind (ih hn.2 hbare.2) fun rest rest' hrest => ?_
      exact .ofPure (h.append hfirst hrest)

theorem walk_attrs (h : Imitation C O vs ws) (hs : scopes.length = scopes'.length)
    {attrs attrs' : List (Attr Node)}
    (hn : ∀ a ∈ attrs, ∀ c ∈ a.value.inner, Walks O vs ws c)
    (hbare : attrs.map Node.bareAttr = attrs'.map Node.bareAttr) :
    Imitates (List.Forall₂ (Attr.Walked O)) (Walk.attrList vs scopes attrs)
      (Walk.attrList ws scopes' attrs') := by
  induction attrs generalizing attrs' with
  | nil =>
    obtain rfl : attrs' = [] := List.map_eq_nil_iff.mp hbare.symm
    rw [Walk.attrList, Walk.attrList]
    exact .ofPure .nil
  | cons a attrs ih =>
    cases attrs' with
    | nil => cases hbare
    | cons a' attrs' =>
      rw [List.map_cons, List.map_cons, List.cons.injEq] at hbare
      rw [List.forall_mem_cons] at hn
      have hinner : a.value.inner.map Node.bare = a'.value.inner.map Node.bare := by
        rw [← Node.inner_bareAttr, hbare.1, Node.inner_bareAttr]
      rw [Walk.attrList_cons, Walk.attrList_cons]
      refine .ofBind (h.walk_list (by simpa using hs) (by simp) hn.1 hinner)
        fun nodes nodes' hnodes => ?_
      refine .ofBind (ih hn.2 hbare.2) fun rest rest' hrest => ?_
      exact .ofPure (.cons ⟨_, _, nodes, nodes', hbare.1, hnodes, rfl, rfl⟩ hrest)

theorem walk_below (h : Imitation C O vs ws) (hs : scopes.length = scopes'.length) {n n' : Node}
    (hattrs : ∀ a ∈ n.attrs, ∀ c ∈ a.value.inner, Walks O vs ws c)
    (hchildren : ∀ c ∈ n.children, Walks O vs ws c) (hbare : n.bare = n'.bare) :
    Imitates C (Walk.below vs scopes n) (Walk.below ws scopes' n') := by
  have hscope : (Scope.of? n).isSome = (Scope.of? n').isSome := by
    rw [← Node.isSome_scope_bare, hbare, Node.isSome_scope_bare]
  rw [Walk.below_eq, Walk.below_eq]
  cases hn : Scope.of? n with
  | none =>
    cases hn' : Scope.of? n' with
    | some scope' => rw [hn, hn'] at hscope; cases hscope
    | none =>
      have hleaf := h.rebuilt hbare .nil h.nil
      rw [Node.withParts_eq_self hn, Node.withParts_eq_self hn'] at hleaf
      exact .ofPure hleaf
  | some scope =>
    cases hn' : Scope.of? n' with
    | none => rw [hn, hn'] at hscope; cases hscope
    | some scope' =>
      have hlength : (scopes ++ [scope]).length = (scopes' ++ [scope']).length := by simpa using hs
      have ha : n.attrs.map Node.bareAttr = n'.attrs.map Node.bareAttr := by
        rw [← Node.attrs_bare, hbare, Node.attrs_bare]
      have hc : n.children.map Node.bare = n'.children.map Node.bare := by
        rw [← Node.children_bare, hbare, Node.children_bare]
      refine .ofBind (h.walk_attrs hlength hattrs ha) fun attrs attrs' hwalked => ?_
      refine .ofBind (h.walk_list hlength (by simp) hchildren hc) fun children children' hout => ?_
      exact .ofPure (h.rebuilt hbare hwalked hout)

theorem walk_node (h : Imitation C O vs ws) (n : Node) : Walks O vs ws n := by
  induction n using Node.byLighter with
  | parts n ih =>
    intro scopes scopes' n' hs hpos hbare
    rw [Walk.node, Walk.node]
    refine .ofBind (h.enter hs hbare) fun e e' he => ?_
    cases e with
    | replace nodes =>
      cases e' with
      | replace nodes' => exact .ofPure he
      | keep => exact he.elim
    | keep node light descend =>
      cases e' with
      | replace => exact he.elim
      | keep node' light' descend' =>
        obtain ⟨hnode, rfl, rfl⟩ := he
        obtain ⟨hattrs, hchildren⟩ := ih node light
        exact .ofBind (h.walk_below hs hattrs hchildren hnode) fun m m' hm => h.leave hs hpos hm

end Imitation

end Lamina
