import Lamina.Proofs.Node.Parts

/-! Properties of every node of a tree, those inside attribute values included. -/

namespace Lamina

namespace Node

mutual

def nodes : Node → List Node
  | template children o => template children o :: nodesAll children
  | raw text o => [raw text o]
  | tag name attrs children closing o =>
    tag name attrs children closing o :: (nodesAttrs attrs ++ nodesAll children)
  | directive name values body o => [directive name values body o]
  | echo expr escape o => [echo expr escape o]
  | host code o => [host code o]
  | block name children o => block name children o :: nodesAll children
  | stack name children o => stack name children o :: nodesAll children
  | push name prepend children o => push name prepend children o :: nodesAll children
  | fragment path attrs children o =>
    fragment path attrs children o :: (nodesAttrs attrs ++ nodesAll children)

def nodesAll : List Node → List Node
  | [] => []
  | node :: rest => nodes node ++ nodesAll rest

def nodesAttrs : List (Attr Node) → List Node
  | [] => []
  | attr :: rest => nodesAttr attr ++ nodesAttrs rest

def nodesAttr : Attr Node → List Node
  | ⟨_, value, _⟩ => nodesValue value

def nodesValue : AttrValue Node → List Node
  | .bare => []
  | .unquoted _ => []
  | .quoted _ nodes => nodesAll nodes
  | .dynamic nodes => nodesAll nodes

end

theorem nodesAll_eq (list : List Node) : nodesAll list = list.flatMap nodes := by
  induction list with
  | nil => rfl
  | cons n list ih => rw [nodesAll, ih, List.flatMap_cons]

theorem mem_nodesAll {x : Node} {list : List Node} :
    x ∈ nodesAll list ↔ ∃ n ∈ list, x ∈ n.nodes := by
  induction list with
  | nil => simp [nodesAll]
  | cons n list ih => simp [nodesAll, ih]

theorem nodesValue_eq (value : AttrValue Node) : nodesValue value = nodesAll value.inner := by
  cases value <;> simp [nodesValue, nodesAll, AttrValue.inner]

theorem mem_nodesAttrs {x : Node} {attrs : List (Attr Node)} :
    x ∈ nodesAttrs attrs ↔ ∃ a ∈ attrs, ∃ c ∈ a.value.inner, x ∈ c.nodes := by
  induction attrs with
  | nil => simp [nodesAttrs]
  | cons a attrs ih =>
    obtain ⟨name, value, o⟩ := a
    simp [nodesAttrs, nodesAttr, nodesValue_eq, mem_nodesAll, ih]

theorem nodes_eq (n : Node) : n.nodes = n :: (nodesAttrs n.attrs ++ nodesAll n.children) := by
  cases n <;> simp [nodes, attrs, children, children?, nodesAttrs, nodesAll]

def Everywhere (P : Node → Prop) (n : Node) : Prop := ∀ x ∈ n.nodes, P x

variable {P Q : Node → Prop} {n : Node}

instance [DecidablePred P] : Decidable (n.Everywhere P) :=
  inferInstanceAs (Decidable (∀ x ∈ n.nodes, P x))

theorem everywhere_iff :
    n.Everywhere P ↔
      P n ∧ (∀ a ∈ n.attrs, ∀ c ∈ a.value.inner, c.Everywhere P) ∧
        ∀ c ∈ n.children, c.Everywhere P := by
  simp only [Everywhere, nodes_eq n, List.mem_cons, List.mem_append, mem_nodesAttrs, mem_nodesAll]
  constructor
  · intro h
    refine ⟨h n (.inl rfl), fun a ha c hc x hx => ?_, fun c hc x hx => ?_⟩
    · exact h x (.inr (.inl ⟨a, ha, c, hc, hx⟩))
    · exact h x (.inr (.inr ⟨c, hc, hx⟩))
  · rintro ⟨h, ha, hc⟩ x (rfl | ⟨a, hm, c, hm', hx⟩ | ⟨c, hm, hx⟩)
    · exact h
    · exact ha a hm c hm' x hx
    · exact hc c hm x hx

end Node

end Lamina
