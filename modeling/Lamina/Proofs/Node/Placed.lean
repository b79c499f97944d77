import Lamina.Proofs.Node.Everywhere

/-! Nodes of a tree with the scopes around them. A node is covered if it stands in an attribute value,
in a stack or in a contribution, and outer if not. -/

namespace Lamina

structure Placed where
  scopes : List Scope
  node : Node

namespace Node

def stack? : Node → Option String
  | stack name _ _ => some name
  | _ => none

def isStack (n : Node) : Bool := n.stack?.isSome

theorem stack?_eq_some (n : Node) (h : n.isStack = true) : n.stack? = some n.name := by
  cases n with
  | stack => rfl
  | _ => cases h

/-- The stack that a contribution goes to, and whether it goes to its front. -/
def push? : Node → Option (String × Bool)
  | push name prepend _ _ => some (name, prepend)
  | _ => none

end Node

namespace Scope

/-- Whether the scope is an attribute value, a stack or a contribution. -/
def covers : Scope → Bool
  | attr _ | stack _ | push _ => true
  | _ => false

end Scope

namespace Placed

def inside (p : Placed) : List Scope := p.scopes ++ (Scope.of? p.node).toList

theorem inside_eq {n : Node} {scope : Scope} (h : Scope.of? n = some scope)
    (scopes : List Scope) : (Placed.mk scopes n).inside = scopes ++ [scope] := by
  rw [inside, h]
  rfl

def isOuter (p : Placed) : Bool := p.scopes.all (!·.covers)

theorem mem_inside_of_push? {p : Placed} {name : String} {prepend : Bool}
    (h : p.node.push? = some (name, prepend)) : Scope.push name ∈ p.inside := by
  obtain ⟨scopes, n⟩ := p
  cases n with
  | push =>
    cases h
    exact List.mem_append_right _ (.head _)
  | _ => cases h

/-- The stacks among the nodes that are not covered, each with what `f` tells of it. -/
def outerStacks (f : Placed → List Node) (ps : List Placed) : List (String × List Node) :=
  (ps.filter fun p => p.node.isStack && p.isOuter).map fun p => (p.node.name, f p)

/-- The contributions among the nodes that go to the front of a stack, or to its back. -/
def pushes (name : String) (prepend : Bool) (ps : List Placed) : List Placed :=
  ps.filter (·.node.push? == some (name, prepend))

theorem mem_pushes {name : String} {prepend : Bool} {ps : List Placed} {p : Placed} :
    p ∈ pushes name prepend ps ↔ p ∈ ps ∧ p.node.push? = some (name, prepend) := by
  rw [pushes, List.mem_filter, beq_iff_eq]

theorem mem_outerStacks {f : Placed → List Node} {ps : List Placed} {name : String}
    {nodes : List Node} :
    (name, nodes) ∈ outerStacks f ps ↔
      ∃ p ∈ ps, p.node.stack? = some name ∧ p.isOuter = true ∧ f p = nodes := by
  simp only [outerStacks, List.mem_map, List.mem_filter, Bool.and_eq_true, Prod.mk.injEq]
  constructor
  · rintro ⟨p, ⟨hp, hstack, houter⟩, rfl, rfl⟩
    exact ⟨p, hp, p.node.stack?_eq_some hstack, houter, rfl⟩
  · rintro ⟨p, hp, hstack, houter, rfl⟩
    have hself : p.node.isStack = true := Option.isSome_of_eq_some hstack
    exact ⟨p, ⟨hp, hself, houter⟩,
      Option.some.inj ((p.node.stack?_eq_some hself).symm.trans hstack), rfl⟩

theorem outerStacks_congr {f : Placed → List Node} {ps qs : List Placed}
    (h : ps.filter (·.node.isStack) = qs.filter (·.node.isStack)) :
    outerStacks f ps = outerStacks f qs := by
  have hfilter (l : List Placed) : (l.filter fun p => p.node.isStack && p.isOuter) =
      (l.filter (·.node.isStack)).filter isOuter := by
    simp only [List.filter_filter, Bool.and_comm]
  rw [outerStacks, outerStacks, hfilter, hfilter, h]

theorem outerStacks_map (f : Placed → List Node) (g : String → List Node → List Node)
    (ps : List Placed) :
    outerStacks (fun p => g p.node.name (f p)) ps =
      (outerStacks f ps).map fun entry => (entry.1, g entry.1 entry.2) := by
  rw [outerStacks, outerStacks, List.map_map]
  rfl

theorem outerStacks_append (f : Placed → List Node) (ps qs : List Placed) :
    outerStacks f (ps ++ qs) = outerStacks f ps ++ outerStacks f qs := by
  simp only [outerStacks, List.filter_append, List.map_append]

theorem outerStacks_eq_nil {f : Placed → List Node} {ps : List Placed}
    (h : ∀ p ∈ ps, p.node.isStack = false ∨ p.isOuter = false) : outerStacks f ps = [] := by
  rw [outerStacks, List.map_eq_nil_iff, List.filter_eq_nil_iff]
  intro p hp
  rcases h p hp with h | h <;> simp [h]

end Placed

namespace Node

mutual

/-- The nodes of a tree with the scopes around them, in the order in which a walk leaves them. -/
def placed (scopes : List Scope) : Node → List Placed
  | template children o =>
    placedAll (scopes ++ [.template o.path]) children ++ [⟨scopes, template children o⟩]
  | raw text o => [⟨scopes, raw text o⟩]
  | tag name attrs children closing o =>
    placedAttrs (scopes ++ [.tag name]) attrs ++ placedAll (scopes ++ [.tag name]) children ++
      [⟨scopes, tag name attrs children closing o⟩]
  | directive name values body o => [⟨scopes, directive name values body o⟩]
  | echo expr escape o => [⟨scopes, echo expr escape o⟩]
  | host code o => [⟨scopes, host code o⟩]
  | block name children o =>
    placedAll (scopes ++ [.block name]) children ++ [⟨scopes, block name children o⟩]
  | stack name children o =>
    placedAll (scopes ++ [.stack name]) children ++ [⟨scopes, stack name children o⟩]
  | push name prepend children o =>
    placedAll (scopes ++ [.push name]) children ++ [⟨scopes, push name prepend children o⟩]
  | fragment path attrs children o =>
    placedAttrs (scopes ++ [.fragment path]) attrs ++
      placedAll (scopes ++ [.fragment path]) children ++ [⟨scopes, fragment path attrs children o⟩]

def placedAll (scopes : List Scope) : List Node → List Placed
  | [] => []
  | node :: rest => placed scopes node ++ placedAll scopes rest

def placedAttrs (scopes : List Scope) : List (Attr Node) → List Placed
  | [] => []
  | attr :: rest => placedAttr scopes attr ++ placedAttrs scopes rest

def placedAttr (scopes : List Scope) : Attr Node → List Placed
  | ⟨name, value, _⟩ => placedValue (scopes ++ [.attr name]) value

def placedValue (scopes : List Scope) : AttrValue Node → List Placed
  | .bare => []
  | .unquoted _ => []
  | .quoted _ nodes => placedAll scopes nodes
  | .dynamic nodes => placedAll scopes nodes

end

theorem placed_eq (scopes : List Scope) (n : Node) :
    n.placed scopes = placedAttrs (Placed.mk scopes n).inside n.attrs ++
      placedAll (Placed.mk scopes n).inside n.children ++ [⟨scopes, n⟩] := by
  cases n <;>
    simp [placed, Placed.inside, Scope.of?, attrs, children, children?, placedAttrs, placedAll]

theorem placed_of_leaf {n : Node} (h : Scope.of? n = none) (scopes : List Scope) :
    n.placed scopes = [⟨scopes, n⟩] := by
  cases n with
  | raw | directive | echo | host => rfl
  | _ => cases h

theorem placedAll_eq (scopes : List Scope) (nodes : List Node) :
    placedAll scopes nodes = nodes.flatMap (placed scopes) := by
  induction nodes with
  | nil => rfl
  | cons n nodes ih => rw [placedAll, ih, List.flatMap_cons]

theorem placedAttrs_eq (scopes : List Scope) (attrs : List (Attr Node)) :
    placedAttrs scopes attrs =
      attrs.flatMap fun a => placedAll (scopes ++ [.attr a.name]) a.value.inner := by
  induction attrs with
  | nil => rfl
  | cons a attrs ih =>
    obtain ⟨name, value, o⟩ := a
    cases value <;> simp [placedAttrs, placedAttr, placedValue, AttrValue.inner, placedAll, ih]

variable {scopes : List Scope} {p q : Placed}

theorem mem_placedAll {nodes : List Node} :
    p ∈ placedAll scopes nodes ↔ ∃ n ∈ nodes, p ∈ n.placed scopes := by
  rw [placedAll_eq, List.mem_flatMap]

theorem mem_placedAttrs {attrs : List (Attr Node)} :
    p ∈ placedAttrs scopes attrs ↔
      ∃ a ∈ attrs, ∃ c ∈ a.value.inner, p ∈ c.placed (scopes ++ [.attr a.name]) := by
  simp only [placedAttrs_eq, List.mem_flatMap, mem_placedAll]

theorem mem_placed {n : Node} :
    p ∈ n.placed scopes ↔ p ∈ placedAttrs (Placed.mk scopes n).inside n.attrs ∨
      p ∈ placedAll (Placed.mk scopes n).inside n.children ∨ p = ⟨scopes, n⟩ := by
  rw [placed_eq, List.mem_append, List.mem_append, List.mem_singleton, or_assoc]

theorem prefix_of_mem_placed {n : Node} (h : p ∈ n.placed scopes) : scopes <+: p.scopes := by
  induction n using byParts generalizing scopes with
  | parts n iha ihc =>
    have hinside : scopes <+: (Placed.mk scopes n).inside := List.prefix_append _ _
    rcases mem_placed.mp h with h | h | rfl
    · obtain ⟨a, ha, c, hc, h⟩ := mem_placedAttrs.mp h
      exact hinside.trans ((List.prefix_append _ _).trans (iha a ha c hc h))
    · obtain ⟨c, hc, h⟩ := mem_placedAll.mp h
      exact hinside.trans (ihc c hc h)
    · exact List.prefix_rfl

theorem not_isOuter_of_mem_placed {n : Node} {scope : Scope} (h : p ∈ n.placed scopes)
    (hmem : scope ∈ scopes) (hcovers : scope.covers = true) : p.isOuter = false := by
  rw [Placed.isOuter, List.all_eq_false]
  exact ⟨scope, (prefix_of_mem_placed h).subset hmem, by simp [hcovers]⟩

theorem outerStacks_placedAll_eq_nil {nodes : List Node} {scope : Scope} (hmem : scope ∈ scopes)
    (hcovers : scope.covers = true) (f : Placed → List Node) :
    Placed.outerStacks f (placedAll scopes nodes) = [] := by
  refine Placed.outerStacks_eq_nil fun p hp => .inr ?_
  obtain ⟨n, _, hp⟩ := mem_placedAll.mp hp
  exact not_isOuter_of_mem_placed hp hmem hcovers

theorem outerStacks_placedAttrs_eq_nil {attrs : List (Attr Node)} (f : Placed → List Node) :
    Placed.outerStacks f (placedAttrs scopes attrs) = [] := by
  refine Placed.outerStacks_eq_nil fun p hp => .inr ?_
  obtain ⟨a, _, c, _, hp⟩ := mem_placedAttrs.mp hp
  exact not_isOuter_of_mem_placed hp (List.mem_append_right _ (.head _)) rfl

theorem outerStacks_placed (f : Placed → List Node) (n : Node) (scopes : List Scope) :
    Placed.outerStacks f (n.placed scopes) =
      Placed.outerStacks f (placedAll (Placed.mk scopes n).inside n.children) ++
        Placed.outerStacks f [⟨scopes, n⟩] := by
  rw [placed_eq, Placed.outerStacks_append, Placed.outerStacks_append,
    outerStacks_placedAttrs_eq_nil, List.nil_append]

theorem mem_placed_of_mem_children {n : Node} (hp : p ∈ n.placed scopes)
    (hq : q ∈ placedAll p.inside p.node.children) : q ∈ n.placed scopes := by
  induction n using byParts generalizing scopes with
  | parts n iha ihc =>
    rcases mem_placed.mp hp with h | h | rfl
    · obtain ⟨a, ha, c, hc, h⟩ := mem_placedAttrs.mp h
      exact mem_placed.mpr (.inl (mem_placedAttrs.mpr ⟨a, ha, c, hc, iha a ha c hc h⟩))
    · obtain ⟨c, hc, h⟩ := mem_placedAll.mp h
      exact mem_placed.mpr (.inr (.inl (mem_placedAll.mpr ⟨c, hc, ihc c hc h⟩)))
    · exact mem_placed.mpr (.inr (.inl hq))

theorem exists_mem_placed {n : Node} (h : p ∈ n.placed scopes) (scopes' : List Scope) :
    ∃ q ∈ n.placed scopes', q.node = p.node := by
  induction n using byParts generalizing scopes scopes' with
  | parts n iha ihc =>
    rcases mem_placed.mp h with h | h | rfl
    · obtain ⟨a, ha, c, hc, h⟩ := mem_placedAttrs.mp h
      obtain ⟨q, hq, he⟩ := iha a ha c hc h ((Placed.mk scopes' n).inside ++ [.attr a.name])
      exact ⟨q, mem_placed.mpr (.inl (mem_placedAttrs.mpr ⟨a, ha, c, hc, hq⟩)), he⟩
    · obtain ⟨c, hc, h⟩ := mem_placedAll.mp h
      obtain ⟨q, hq, he⟩ := ihc c hc h (Placed.mk scopes' n).inside
      exact ⟨q, mem_placed.mpr (.inr (.inl (mem_placedAll.mpr ⟨c, hc, hq⟩))), he⟩
    · exact ⟨⟨scopes', n⟩, mem_placed.mpr (.inr (.inr rfl)), rfl⟩

end Node

namespace Placed

/-- The nodes right below a node with the scopes around them: those in the values of attributes,
and then the children. -/
def parts (p : Placed) : List Placed :=
  (p.node.attrs.flatMap fun a => a.value.inner.map (.mk (p.inside ++ [.attr a.name]))) ++
    p.node.children.map (.mk p.inside)

variable {p q : Placed}

theorem mem_parts : q ∈ p.parts ↔
    (∃ a ∈ p.node.attrs, ∃ c ∈ a.value.inner, ⟨p.inside ++ [.attr a.name], c⟩ = q) ∨
      ∃ c ∈ p.node.children, ⟨p.inside, c⟩ = q := by
  simp only [parts, List.mem_append, List.mem_flatMap, List.mem_map]

theorem weight_lt_of_mem_parts (h : q ∈ p.parts) : q.node.weight < p.node.weight := by
  rcases mem_parts.mp h with ⟨a, ha, c, hc, rfl⟩ | ⟨c, hc, rfl⟩
  · exact Node.weight_lt_of_inner ha hc
  · exact Node.weight_lt_of_child hc

@[elab_as_elim]
theorem byParts {motive : Placed → Prop} (parts : ∀ p, (∀ q ∈ p.parts, motive q) → motive p)
    (p : Placed) : motive p :=
  parts p fun q _ => byParts parts q
termination_by p.node.weight
decreasing_by exact weight_lt_of_mem_parts ‹_›

theorem placed_eq_parts (p : Placed) :
    p.node.placed p.scopes = (p.parts.flatMap fun q => q.node.placed q.scopes) ++ [p] := by
  rw [Node.placed_eq, Node.placedAttrs_eq, Node.placedAll_eq]
  simp only [Node.placedAll_eq, parts, List.flatMap_append, List.flatMap_map, List.flatMap_assoc]

end Placed

end Lamina
