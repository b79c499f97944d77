import Lamina.Walk

/-! A node is a construct with attributes and children as its parts. Induction goes by the parts,
and the walk goes below every construct in the same way: attributes first, then children. -/

namespace Lamina

/-- The value with other nodes inside it; a value without nodes stays as it is. -/
def AttrValue.withInner {ν : Type} (nodes : List ν) : AttrValue ν → AttrValue ν
  | bare => bare
  | unquoted text => unquoted text
  | quoted quote _ => quoted quote nodes
  | dynamic _ => dynamic nodes

theorem AttrValue.mem_of_mem_withInner {ν : Type} {value : AttrValue ν} {nodes : List ν} {c : ν}
    (h : c ∈ (value.withInner nodes).inner) : c ∈ nodes := by
  cases value with
  | bare | unquoted => cases h
  | quoted | dynamic => exact h

namespace Node

/-- The construct with other attributes and children, as far as it has some. -/
def withParts (attrs : List (Attr Node)) (children : List Node) : Node → Node
  | template _ o => template children o
  | tag name _ _ closing o => tag name attrs children closing o
  | block name _ o => block name children o
  | stack name _ o => stack name children o
  | push name prepend _ o => push name prepend children o
  | fragment path _ _ o => fragment path attrs children o
  | raw text o => raw text o
  | directive name values body o => directive name values body o
  | echo expr escape o => echo expr escape o
  | host code o => host code o

theorem withParts_withParts (n : Node) (attrs attrs' : List (Attr Node))
    (children children' : List Node) :
    (n.withParts attrs children).withParts attrs' children' = n.withParts attrs' children' := by
  cases n <;> rfl

theorem scope_withParts (n : Node) (attrs : List (Attr Node)) (children : List Node) :
    Scope.of? (n.withParts attrs children) = Scope.of? n := by
  cases n <;> rfl

theorem withParts_eq_self {n : Node} (h : Scope.of? n = none) (attrs : List (Attr Node))
    (children : List Node) : n.withParts attrs children = n := by
  cases n with
  | raw | directive | echo | host => rfl
  | _ => cases h

theorem attrs_of_leaf {n : Node} (h : Scope.of? n = none) : n.attrs = [] := by
  cases n with
  | tag | fragment => cases h
  | _ => rfl

theorem children_of_leaf {n : Node} (h : Scope.of? n = none) : n.children = [] := by
  cases n with
  | raw | directive | echo | host => rfl
  | _ => cases h

theorem weightAll_children_lt (n : Node) : weightAll n.children < n.weight := by
  cases n with
  | raw | directive | echo | host => exact weight_pos _
  | _ =>
    simp only [children, children?, Option.getD_some, weight]
    omega

theorem weightAttrs_attrs_lt (n : Node) : weightAttrs n.attrs < n.weight := by
  cases n with
  | tag | fragment =>
    simp only [attrs, weight]
    omega
  | _ => exact weight_pos _

theorem weight_le_weightAll {n : Node} {nodes : List Node} (h : n ∈ nodes) :
    n.weight ≤ weightAll nodes := by
  induction nodes with
  | nil => cases h
  | cons x nodes ih =>
    rw [weightAll]
    rcases List.mem_cons.mp h with rfl | h
    · omega
    · have := ih h
      omega

theorem weightAll_inner_lt {a : Attr Node} {attrs : List (Attr Node)} (h : a ∈ attrs) :
    weightAll a.value.inner < weightAttrs attrs := by
  induction attrs with
  | nil => cases h
  | cons x attrs ih =>
    rw [weightAttrs]
    rcases List.mem_cons.mp h with rfl | h
    · obtain ⟨name, value, o⟩ := a
      cases value <;> simp [weightAttr, weightValue, weightAll, AttrValue.inner] <;> omega
    · have := ih h
      omega

theorem weight_lt_of_inner {n c : Node} {a : Attr Node} (ha : a ∈ n.attrs)
    (hc : c ∈ a.value.inner) : c.weight < n.weight :=
  calc c.weight ≤ weightAll a.value.inner := weight_le_weightAll hc
    _ < weightAttrs n.attrs := weightAll_inner_lt ha
    _ < n.weight := n.weightAttrs_attrs_lt

theorem weight_lt_of_child {n c : Node} (hc : c ∈ n.children) : c.weight < n.weight :=
  Nat.lt_of_le_of_lt (weight_le_weightAll hc) n.weightAll_children_lt

/-- Induction for what may change a node before going below it: the parts are those of any node that
is not heavier. -/
@[elab_as_elim]
theorem byLighter {motive : Node → Prop}
    (parts : ∀ n, (∀ m : Node, m.weight ≤ n.weight →
      (∀ a ∈ m.attrs, ∀ c ∈ a.value.inner, motive c) ∧ ∀ c ∈ m.children, motive c) → motive n)
    (n : Node) : motive n := by
  refine parts n fun m hm => ⟨fun a ha c hc => byLighter parts c, fun c hc => byLighter parts c⟩
termination_by n.weight
decreasing_by
  · exact Nat.lt_of_lt_of_le (weight_lt_of_inner ha hc) hm
  · exact Nat.lt_of_lt_of_le (weight_lt_of_child hc) hm

@[elab_as_elim]
theorem byParts {motive : Node → Prop}
    (parts : ∀ n, (∀ a ∈ n.attrs, ∀ c ∈ a.value.inner, motive c) →
      (∀ c ∈ n.children, motive c) → motive n) (n : Node) : motive n :=
  byLighter (fun n ih => parts n (ih n n.weight.le_refl).1 (ih n n.weight.le_refl).2) n

end Node

namespace Walk

variable {m : Type → Type} [Monad m] [LawfulMonad m]

theorem below_eq (visitors : List (Visitor m)) (scopes : List Scope) (n : Node) :
    below visitors scopes n =
      match Scope.of? n with
      | none => pure n
      | some scope =>
        attrList visitors (scopes ++ [scope]) n.attrs >>= fun attrs =>
          list visitors (scopes ++ [scope]) n.children >>= fun children =>
            pure (n.withParts attrs children) := by
  cases n <;>
    simp [below, Scope.of?, Node.attrs, Node.children, Node.children?, Node.withParts, attrList]

theorem attrList_cons (visitors : List (Visitor m)) (scopes : List Scope) (a : Attr Node)
    (rest : List (Attr Node)) :
    attrList visitors scopes (a :: rest) =
      list visitors (scopes ++ [.attr a.name]) a.value.inner >>= fun nodes =>
        attrList visitors scopes rest >>= fun rest =>
          pure ({ a with value := a.value.withInner nodes } :: rest) := by
  obtain ⟨name, value, o⟩ := a
  rw [attrList]
  cases value <;> simp [attrValue, AttrValue.inner, AttrValue.withInner, list]

end Walk

end Lamina
