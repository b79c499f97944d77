import Lamina.Builder
import Lamina.Proofs.Except
import Lamina.Proofs.Node.Placed

/-! What the passes over a page come to. Every node settles where it stands, by itself and with no
regard to stacks; contributions are taken out on the way, in the order in which the walk leaves them,
and at the end they go into the stacks of the page. -/

namespace Lamina

open Lamina.Text

namespace Node

/-- Text as it is on a page. -/
def tidied (preserve : List Scope → Bool) (scopes : List Scope) (text : String) : String :=
  if preserve scopes then text else onChars collapseBreaks text

variable (d : Directives) (preserve : List Scope → Bool)

mutual

def settle (scopes : List Scope) : Node → Except Failure (List Node)
  | template children o => do
    return [template (← settleAll (scopes ++ [.template o.path]) children) o]
  | tag name attrs children closing o => do
    let attrs ← settleAttrs (scopes ++ [.tag name]) attrs
    return [tag name attrs (← settleAll (scopes ++ [.tag name]) children) closing o]
  | block name children o => do
    return [block name (← settleAll (scopes ++ [.block name]) children) o]
  | stack name children o => do
    return [stack name (← settleAll (scopes ++ [.stack name]) children) o]
  | push name _ children _ => do
    let _ ← settleAll (scopes ++ [.push name]) children
    return []
  | fragment path attrs children o => do
    let attrs ← settleAttrs (scopes ++ [.fragment path]) attrs
    return [fragment path attrs (← settleAll (scopes ++ [.fragment path]) children) o]
  | raw text o => return [raw (tidied preserve scopes text) o]
  | directive name values body o =>
    if !d.knows name && scopes.any (Scope.isTagOf ["style"]) then
      return [raw (tidied preserve scopes (Pass.verbatim name body)) o]
    else do return [host (← d.expand ⟨name, values, body, o⟩) o]
  | echo expr escape o =>
    let expr := onChars trim expr
    if expr.isEmpty then throw (.parse .emptyEcho o.path o.line none)
    else return [host (Pass.echoCode expr escape) o]
  | host code o => return [host code o]

def settleAll (scopes : List Scope) : List Node → Except Failure (List Node)
  | [] => return []
  | node :: rest => do return (← settle scopes node) ++ (← settleAll scopes rest)

def settleAttrs (scopes : List Scope) : List (Attr Node) → Except Failure (List (Attr Node))
  | [] => return []
  | attr :: rest => do return (← settleAttr scopes attr) :: (← settleAttrs scopes rest)

def settleAttr (scopes : List Scope) : Attr Node → Except Failure (Attr Node)
  | ⟨name, value, o⟩ => do return ⟨name, ← settleValue (scopes ++ [.attr name]) value, o⟩

def settleValue (scopes : List Scope) : AttrValue Node → Except Failure (AttrValue Node)
  | .bare => return .bare
  | .unquoted text => return .unquoted text
  | .quoted quote nodes => do return .quoted quote (← settleAll scopes nodes)
  | .dynamic nodes => do return .dynamic (← settleAll scopes nodes)

end

theorem settle_eq_of_scope {n : Node} {scope : Scope} (h : Scope.of? n = some scope)
    (scopes : List Scope) :
    settle d preserve scopes n =
      settleAttrs d preserve (scopes ++ [scope]) n.attrs >>= fun attrs =>
        settleAll d preserve (scopes ++ [scope]) n.children >>= fun children =>
          pure (if Pass.isPush n then [] else [n.withParts attrs children]) := by
  cases n with
  | tag | fragment | template | block | stack | push =>
    cases h
    rfl
  | raw | directive | echo | host => cases h

variable {d preserve} {scopes : List Scope} {n : Node} {nodes out : List Node}

/-- A node that settles is text or code and comes to something like it, or its parts settle and it
stays with them, unless it is a contribution. -/
theorem settle_eq_ok (h : settle d preserve scopes n = .ok out) :
    (Scope.of? n = none ∧ ∃ n', Scope.of? n' = none ∧ out = [n']) ∨
      ∃ scope attrs children, Scope.of? n = some scope ∧
        settleAttrs d preserve (scopes ++ [scope]) n.attrs = .ok attrs ∧
        settleAll d preserve (scopes ++ [scope]) n.children = .ok children ∧
        out = if Pass.isPush n then [] else [n.withParts attrs children] := by
  cases hscope : Scope.of? n with
  | some scope =>
    rw [settle_eq_of_scope d preserve hscope] at h
    obtain ⟨attrs, hattrs, h⟩ := bind_eq_ok.mp h
    obtain ⟨children, hchildren, h⟩ := bind_eq_ok.mp h
    exact .inr ⟨scope, attrs, children, rfl, hattrs, hchildren, (Except.ok.inj h).symm⟩
  | none =>
    refine .inl ⟨rfl, ?_⟩
    cases n with
    | raw text o => exact ⟨_, rfl, (Except.ok.inj h).symm⟩
    | host code o => exact ⟨_, rfl, (Except.ok.inj h).symm⟩
    | directive name values body o =>
      rw [settle] at h
      split at h
      · exact ⟨_, rfl, (Except.ok.inj h).symm⟩
      · obtain ⟨code, _, h⟩ := bind_eq_ok.mp h
        exact ⟨_, rfl, (Except.ok.inj h).symm⟩
    | echo expr escape o =>
      simp only [settle] at h
      split at h
      · cases h
      · exact ⟨_, rfl, (Except.ok.inj h).symm⟩
    | _ => cases hscope

theorem settleAll_cons_eq_ok (h : settleAll d preserve scopes (n :: nodes) = .ok out) :
    ∃ first rest, settle d preserve scopes n = .ok first ∧
      settleAll d preserve scopes nodes = .ok rest ∧ out = first ++ rest := by
  obtain ⟨first, hfirst, h⟩ := bind_eq_ok.mp h
  obtain ⟨rest, hrest, h⟩ := bind_eq_ok.mp h
  exact ⟨first, rest, hfirst, hrest, (Except.ok.inj h).symm⟩

theorem settleAttrs_cons_eq_ok {a : Attr Node} {attrs out : List (Attr Node)}
    (h : settleAttrs d preserve scopes (a :: attrs) = .ok out) :
    ∃ inner rest, settleAll d preserve (scopes ++ [.attr a.name]) a.value.inner = .ok inner ∧
      settleAttrs d preserve scopes attrs = .ok rest ∧
      out = { a with value := a.value.withInner inner } :: rest := by
  obtain ⟨a', ha, h⟩ := bind_eq_ok.mp h
  obtain ⟨rest, hrest, h⟩ := bind_eq_ok.mp h
  obtain ⟨name, value, o⟩ := a
  obtain ⟨value', hvalue, ha⟩ := bind_eq_ok.mp ha
  cases Except.ok.inj ha
  cases Except.ok.inj h
  cases value with
  | bare | unquoted =>
    cases Except.ok.inj hvalue
    exact ⟨[], rest, rfl, hrest, rfl⟩
  | quoted | dynamic =>
    obtain ⟨inner, hinner, hvalue⟩ := bind_eq_ok.mp hvalue
    cases Except.ok.inj hvalue
    exact ⟨inner, rest, hinner, hrest, rfl⟩

theorem settleAll_eq_ok (h : settleAll d preserve scopes nodes = .ok out) :
    (∀ n ∈ nodes, ∃ l, settle d preserve scopes n = .ok l) ∧
      ∀ x ∈ out, ∃ n ∈ nodes, ∃ l, settle d preserve scopes n = .ok l ∧ x ∈ l := by
  induction nodes generalizing out with
  | nil =>
    cases Except.ok.inj h
    exact ⟨List.forall_mem_nil _, List.forall_mem_nil _⟩
  | cons n nodes ih =>
    obtain ⟨first, rest, hfirst, hrest, rfl⟩ := settleAll_cons_eq_ok h
    refine ⟨List.forall_mem_cons.mpr ⟨⟨first, hfirst⟩, (ih hrest).1⟩, fun x hx => ?_⟩
    rcases List.mem_append.mp hx with hx | hx
    · exact ⟨n, .head _, first, hfirst, hx⟩
    · obtain ⟨m, hm, found⟩ := (ih hrest).2 x hx
      exact ⟨m, .tail _ hm, found⟩

theorem settleAttrs_eq_ok {attrs out : List (Attr Node)}
    (h : settleAttrs d preserve scopes attrs = .ok out) :
    (∀ a ∈ attrs, ∃ l, settleAll d preserve (scopes ++ [.attr a.name]) a.value.inner = .ok l) ∧
      ∀ b ∈ out, ∃ a ∈ attrs, ∃ l, settleAll d preserve (scopes ++ [.attr a.name]) a.value.inner =
        .ok l ∧ b = { a with value := a.value.withInner l } := by
  induction attrs generalizing out with
  | nil =>
    cases Except.ok.inj h
    exact ⟨List.forall_mem_nil _, List.forall_mem_nil _⟩
  | cons a attrs ih =>
    obtain ⟨inner, rest, hinner, hrest, rfl⟩ := settleAttrs_cons_eq_ok h
    refine ⟨List.forall_mem_cons.mpr ⟨⟨inner, hinner⟩, (ih hrest).1⟩, fun b hb => ?_⟩
    rcases List.mem_cons.mp hb with rfl | hb
    · exact ⟨a, .head _, inner, hinner, rfl⟩
    · obtain ⟨a', ha, found⟩ := (ih hrest).2 b hb
      exact ⟨a', .tail _ ha, found⟩

end Node

namespace Placed

variable (d : Directives) (preserve : List Scope → Bool)

def content (p : Placed) : List Node :=
  (Node.settleAll d preserve p.inside p.node.children).toOption.getD []

def contribution? (p : Placed) : Option Contribution :=
  p.node.push?.map fun push => ⟨push.1, push.2, p.content d preserve⟩

end Placed

/-- `x` comes out as `y` does and notes the contributions down, behind those noted before. -/
def Gathers {α : Type} (x : WalkM α) (y : Except Failure α) (c : List Contribution) : Prop :=
  ∀ notes, x.run notes = match y with
    | .ok a => pure (a, { notes with contributions := notes.contributions ++ c })
    | .error failure => throw failure

namespace Gathers

variable {α β : Type} {c c' : List Contribution}

theorem ofPure (a : α) : Gathers (pure a) (pure a) [] := by
  intro notes
  simp only [List.append_nil]
  rfl

theorem ofThrow (failure : Failure) : Gathers (throw failure : WalkM α) (throw failure) c :=
  fun _ => rfl

theorem ofBind {x : WalkM α} {y : Except Failure α} {f : α → WalkM β} {g : α → Except Failure β}
    (hx : Gathers x y c) (hf : ∀ a, y = .ok a → Gathers (f a) (g a) c') :
    Gathers (x >>= f) (y >>= g) (c ++ c') := by
  intro notes
  rw [StateT.run_bind, hx]
  cases y with
  | error failure => rfl
  | ok a =>
    refine (hf a rfl _).trans ?_
    simp only [List.append_assoc]
    rfl

theorem ofMap {x : WalkM α} {y : Except Failure α} (hx : Gathers x y c) (f : α → β) :
    Gathers (x >>= fun a => pure (f a)) (y >>= fun a => pure (f a)) c := by
  have h := hx.ofBind fun a _ => ofPure (f a)
  rwa [List.append_nil] at h

end Gathers

namespace Pass

variable (d : Directives) (preserve : List Scope → Bool) (r : Resolver) {scopes : List Scope}

def finalizers : List (Visitor WalkM) := (finalize d preserve).map fun pass => pass r

theorem node_finalizers (n : Node) :
    Walk.node (finalizers d preserve r) scopes n =
      Walk.below (finalizers d preserve r) scopes n >>= fun m =>
        Walk.leaveAll scopes m (finalizers d preserve r) := by
  rw [Walk.node]
  simp [finalizers, finalize, Walk.enterAll, collect, expand, tidy, Visitor.onLeave, Entered.go]

theorem leaf_gathers {n : Node} (h : Scope.of? n = none) :
    Gathers (Walk.leaveAll scopes n (finalizers d preserve r)) (n.settle d preserve scopes) [] := by
  cases n with
  | raw text o => exact .ofPure _
  | host code o => exact .ofPure _
  | directive name values body o =>
    simp only [Node.settle, finalizers, finalize, List.map_cons, List.map_nil, Walk.leaveAll, collect,
      expand, Visitor.onLeave, pure_bind]
    split
    · exact .ofPure _
    · cases d.expand ⟨name, values, body, o⟩ with
      | error failure => exact .ofThrow _
      | ok code => exact .ofPure _
  | echo expr escape o =>
    simp only [Node.settle, finalizers, finalize, List.map_cons, List.map_nil, Walk.leaveAll, collect,
      expand, Visitor.onLeave, pure_bind]
    split
    · exact .ofThrow _
    · exact .ofPure _
  | _ => cases h

theorem scope_gathers {n : Node} {scope : Scope} (h : Scope.of? n = some scope)
    (hs : scopes.isEmpty = false) :
    Gathers (Walk.leaveAll scopes n (finalizers d preserve r))
      (pure (if isPush n then [] else [n]))
      (n.push?.map fun push => (⟨push.1, push.2, n.children⟩ : Contribution)).toList := by
  cases n with
  | push name prepend children o => intro notes; rfl
  | template children o =>
    simp only [finalizers, finalize, List.map_cons, List.map_nil, Walk.leaveAll, collect, expand, tidy,
      Visitor.onLeave, hs, Bool.false_eq_true, if_false, pure_bind]
    exact .ofPure _
  | raw | directive | echo | host => cases h
  | _ => exact .ofPure _

/-- What is noted down on the way through the nodes. -/
def contributions (ps : List Placed) : List Contribution :=
  ps.filterMap (Placed.contribution? d preserve)

variable {d preserve r}

theorem list_gathers {nodes : List Node} (h : ∀ n ∈ nodes,
      Gathers (Walk.node (finalizers d preserve r) scopes n) (n.settle d preserve scopes)
        (contributions d preserve (n.placed scopes))) :
    Gathers (Walk.list (finalizers d preserve r) scopes nodes)
      (Node.settleAll d preserve scopes nodes)
      (contributions d preserve (Node.placedAll scopes nodes)) := by
  induction nodes with
  | nil =>
    rw [Walk.list]
    exact .ofPure _
  | cons n nodes ih =>
    rw [List.forall_mem_cons] at h
    rw [Walk.list, Node.settleAll, Node.placedAll, contributions, List.filterMap_append]
    exact .ofBind h.1 fun first _ => .ofMap (ih h.2) _

theorem attrs_gather {attrs : List (Attr Node)} (h : ∀ a ∈ attrs, ∀ c ∈ a.value.inner,
      Gathers (Walk.node (finalizers d preserve r) (scopes ++ [.attr a.name]) c)
        (c.settle d preserve (scopes ++ [.attr a.name]))
        (contributions d preserve (c.placed (scopes ++ [.attr a.name])))) :
    Gathers (Walk.attrList (finalizers d preserve r) scopes attrs)
      (Node.settleAttrs d preserve scopes attrs)
      (contributions d preserve (Node.placedAttrs scopes attrs)) := by
  induction attrs with
  | nil =>
    rw [Walk.attrList]
    exact .ofPure _
  | cons a attrs ih =>
    obtain ⟨name, value, o⟩ := a
    rw [List.forall_mem_cons] at h
    have hvalue : Gathers (Walk.attrValue (finalizers d preserve r) (scopes ++ [.attr name]) value)
        (Node.settleValue d preserve (scopes ++ [.attr name]) value)
        (contributions d preserve (Node.placedValue (scopes ++ [.attr name]) value)) := by
      cases value with
      | bare | unquoted =>
        rw [Walk.attrValue]
        exact .ofPure _
      | quoted | dynamic =>
        rw [Walk.attrValue]
        exact .ofMap (list_gathers h.1) _
    rw [Walk.attrList, Node.settleAttrs, Node.settleAttr, Node.placedAttrs, contributions,
      List.filterMap_append, bind_assoc]
    simp only [pure_bind]
    exact .ofBind hvalue fun value' _ => .ofMap (ih h.2) _

theorem node_gathers (n : Node) (hs : scopes.isEmpty = false) :
    Gathers (Walk.node (finalizers d preserve r) scopes n) (n.settle d preserve scopes)
      (contributions d preserve (n.placed scopes)) := by
  induction n using Node.byParts generalizing scopes with
  | parts n iha ihc =>
    rw [node_finalizers, Walk.below_eq]
    cases hscope : Scope.of? n with
    | none =>
      have hnothing : contributions d preserve (n.placed scopes) = [] := by
        cases n with
        | raw | directive | echo | host => rfl
        | _ => cases hscope
      rw [hnothing]
      simp only [pure_bind]
      exact leaf_gathers d preserve r hscope
    | some scope =>
      have hinside := Placed.inside_eq hscope scopes
      rw [Node.settle_eq_of_scope d preserve hscope, Node.placed_eq, hinside]
      simp only [contributions, List.filterMap_append, List.append_assoc, bind_assoc, pure_bind]
      refine .ofBind (attrs_gather fun a ha c hc => iha a ha c hc (by simp)) fun attrs _ =>
        .ofBind (list_gathers fun c hc => ihc c hc (by simp)) fun children hc => ?_
      -- a contribution holds what its children have come to
      have hcontent : (Placed.mk scopes n).content d preserve = children := by
        rw [Placed.content, hinside, hc]
        rfl
      have hleave := scope_gathers d preserve r
        ((n.scope_withParts attrs children).trans hscope) hs
      cases n with
      | push name prepend _ o =>
        rw [← hcontent] at hleave ⊢
        exact hleave
      | template | tag | block | stack | fragment => exact hleave
      | raw | directive | echo | host => cases hscope

theorem root_leave (children : List Node) (o : Origin) (notes : Notes) :
    (Walk.leaveAll [] (.template children o) (finalizers d preserve r)).run notes =
      pure ([.template (trimEdges (Node.fillStacksAll notes.contributions children)) o], notes) :=
  rfl

/-- The passes over a page fail if some node of it does not settle. Otherwise the nodes settle, their
contributions go into the stacks, and the edges are trimmed. -/
theorem run_finalize (children : List Node) (o : Origin) :
    Builder.run (finalize d preserve) r (.template children o) =
      match Node.settleAll d preserve [.template o.path] children with
      | .error failure => throw failure
      | .ok nodes => pure (.template (trimEdges (Node.fillStacksAll
          (contributions d preserve ((Node.template children o).placed [])) nodes)) o) := by
  -- the root is no contribution
  have hroot : contributions d preserve ((Node.template children o).placed []) =
      contributions d preserve (Node.placedAll [.template o.path] children) := by
    rw [Node.placed, contributions, List.filterMap_append]
    exact List.append_nil _
  have hlist : Gathers (Walk.list (finalizers d preserve r) [.template o.path] children)
      (Node.settleAll d preserve [.template o.path] children)
      (contributions d preserve (Node.placedAll [.template o.path] children)) :=
    list_gathers fun c _ => node_gathers c rfl
  change StateT.run' (Walk.root (finalizers d preserve r) (.template children o)) {} = _
  rw [hroot, StateT.run'_eq, Walk.root, node_finalizers, Walk.below, List.nil_append]
  simp only [bind_assoc, pure_bind]
  rw [StateT.run_bind, hlist]
  cases Node.settleAll d preserve [.template o.path] children with
  | error failure => rfl
  | ok nodes =>
    simp only [pure_bind, StateT.run_bind, root_leave]
    rfl

end Pass

end Lamina
