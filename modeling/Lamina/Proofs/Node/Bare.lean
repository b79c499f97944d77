import Lamina.Pass.Prepare
import Lamina.Pass.Merge
import Lamina.Proofs.Except
import Lamina.Proofs.Node.Parts

/-! Trees apart from where they come from. What the passes look at is left in a bare tree, so they do
alike to trees that are the same when bare. -/

namespace Lamina

def Origin.nowhere : Origin := .of "" 0 .html ""

namespace Node

mutual

def bare : Node → Node
  | template children _ => template (bareAll children) .nowhere
  | raw text _ => raw text .nowhere
  | tag name attrs children closing _ =>
    tag name (bareAttrs attrs) (bareAll children) closing .nowhere
  | directive name values body _ => directive name values body .nowhere
  | echo expr escape _ => echo expr escape .nowhere
  | host code _ => host code .nowhere
  | block name children _ => block name (bareAll children) .nowhere
  | stack name children _ => stack name (bareAll children) .nowhere
  | push name prepend children _ => push name prepend (bareAll children) .nowhere
  | fragment path attrs children _ =>
    fragment path (bareAttrs attrs) (bareAll children) .nowhere

def bareAll : List Node → List Node
  | [] => []
  | node :: rest => bare node :: bareAll rest

def bareAttrs : List (Attr Node) → List (Attr Node)
  | [] => []
  | attr :: rest => bareAttr attr :: bareAttrs rest

def bareAttr : Attr Node → Attr Node
  | ⟨name, value, _⟩ => ⟨name, bareValue value, .nowhere⟩

def bareValue : AttrValue Node → AttrValue Node
  | .bare => .bare
  | .unquoted text => .unquoted text
  | .quoted quote nodes => .quoted quote (bareAll nodes)
  | .dynamic nodes => .dynamic (bareAll nodes)

end

theorem bareAll_eq (nodes : List Node) : bareAll nodes = nodes.map bare := by
  induction nodes with
  | nil => rfl
  | cons n nodes ih => rw [bareAll, ih, List.map_cons]

theorem bareAttrs_eq (attrs : List (Attr Node)) : bareAttrs attrs = attrs.map bareAttr := by
  induction attrs with
  | nil => rfl
  | cons a attrs ih => rw [bareAttrs, ih, List.map_cons]

theorem bareAttr_withInner (a : Attr Node) (nodes : List Node) :
    bareAttr { a with value := a.value.withInner nodes } =
      { bareAttr a with value := (bareAttr a).value.withInner (nodes.map bare) } := by
  obtain ⟨name, value, o⟩ := a
  cases value <;> simp [AttrValue.withInner, bareAttr, bareValue, bareAll_eq]

theorem inner_bareAttr (a : Attr Node) :
    (bareAttr a).value.inner = a.value.inner.map bare := by
  obtain ⟨name, value, o⟩ := a
  cases value <;> simp [bareAttr, bareValue, bareAll_eq, AttrValue.inner]

theorem children_bare (n : Node) : n.bare.children = n.children.map bare := by
  cases n <;> simp [bare, children, children?, bareAll_eq]

theorem attrs_bare (n : Node) : n.bare.attrs = n.attrs.map bareAttr := by
  cases n <;> simp [bare, attrs, bareAttrs_eq]

theorem bare_withParts (n : Node) (attrs : List (Attr Node)) (children : List Node) :
    (n.withParts attrs children).bare =
      n.bare.withParts (attrs.map bareAttr) (children.map bare) := by
  cases n <;> simp [bare, withParts, bareAll_eq, bareAttrs_eq]

theorem isSome_scope_bare (n : Node) : (Scope.of? n.bare).isSome = (Scope.of? n).isSome := by
  cases n <;> rfl

theorem exists_tag_of_bare {n : Node} {name : String} {attrs : List (Attr Node)}
    {children : List Node} {closing : Closing} {o : Origin}
    (h : (tag name attrs children closing o).bare = n.bare) :
    ∃ attrs' children' o', n = tag name attrs' children' closing o' ∧
      attrs.map bareAttr = attrs'.map bareAttr ∧ children.map bare = children'.map bare := by
  cases n with
  | tag name' attrs' children' closing' o' =>
    simp only [bare, bareAll_eq, bareAttrs_eq, tag.injEq] at h
    obtain ⟨rfl, hattrs, hchildren, rfl, -⟩ := h
    exact ⟨attrs', children', o', rfl, hattrs, hchildren⟩
  | _ => simp [bare] at h

theorem exists_fragment_of_bare {n : Node} {path : String} {attrs : List (Attr Node)}
    {children : List Node} {o : Origin}
    (h : ((fragment path attrs children o).withParts [] []).bare = (n.withParts [] []).bare) :
    ∃ attrs' children' o', n = fragment path attrs' children' o' := by
  cases n with
  | fragment path' attrs' children' o' =>
    simp only [withParts, bare, fragment.injEq] at h
    exact ⟨attrs', children', o', h.1 ▸ rfl⟩
  | _ => simp [withParts, bare] at h

theorem literalText?_bare (nodes : List Node) :
    AttrValue.literalText? (nodes.map bare) = AttrValue.literalText? nodes := by
  induction nodes with
  | nil => rfl
  | cons n nodes ih =>
    cases n with
    | raw text o => rw [List.map_cons, bare, AttrValue.literalText?, ih, AttrValue.literalText?]
    | _ => rfl

theorem literal?_bareValue (value : AttrValue Node) : (bareValue value).literal? = value.literal? := by
  cases value with
  | quoted quote nodes =>
    rw [bareValue, bareAll_eq]
    exact literalText?_bare nodes
  | _ => rfl

end Node

theorem Attr.literal?_bare (name : String) {attrs attrs' : List (Attr Node)}
    (h : attrs.map Node.bareAttr = attrs'.map Node.bareAttr) :
    Attr.literal? name attrs = Attr.literal? name attrs' := by
  have hbare (attrs : List (Attr Node)) :
      Attr.literal? name (attrs.map Node.bareAttr) = Attr.literal? name attrs := by
    have hname : (fun a : Attr Node => a.name == name) ∘ Node.bareAttr = fun a => a.name == name := by
      funext a
      cases a
      rfl
    rw [Attr.literal?, Attr.find?, List.find?_map, hname, Attr.literal?, Attr.find?]
    cases attrs.find? fun a => a.name == name with
    | none => rfl
    | some a =>
      obtain ⟨_, value, _⟩ := a
      exact Node.literal?_bareValue value
  rw [← hbare attrs, h, hbare]

end Lamina
