import Lamina.Fillings
import Lamina.Proofs.Node.Everywhere
import Mathlib.Data.List.Forall2

/-! Traits: properties of single constructs and attributes that do not depend on what stands below
them. Whatever moves nodes around keeps the traits that all of them have. -/

namespace Lamina

/-- A property of constructs and of attributes, whatever their parts are and whatever the values
hold. -/
structure Trait where
  node : Node → Prop
  attr : Attr Node → Prop
  parts : ∀ {n} attrs children, node n → node (n.withParts attrs children)
  value : ∀ {a} nodes, attr a → attr { a with value := a.value.withInner nodes }
  text : ∀ {text o} text', node (.raw text o) → node (.raw text' o)
  content : ∀ {a} text, attr a → node (.raw text a.origin)
  asAttr : ∀ {name attrs children closing o key}, node (.tag name attrs children closing o) →
    Node.suffix? "attr" name = some key → key.isEmpty = false → attr ⟨key, .quoted '"' children, o⟩

structure Trait.Attaches (T' : Trait) (r : Origin) (T : Trait) : Prop where
  node : ∀ n, T'.node n → T.node (n.attach r)
  attr : ∀ name value o, T'.attr ⟨name, value, o⟩ → T.attr ⟨name, value, o.attach r⟩

namespace Node

/-- Every construct of the tree, and every attribute, has the trait. -/
def Has (T : Trait) (n : Node) : Prop := n.Everywhere fun x => T.node x ∧ ∀ a ∈ x.attrs, T.attr a

end Node

/-- The attribute and everything in its value has the trait. -/
def Attr.Has (T : Trait) (a : Attr Node) : Prop := T.attr a ∧ ∀ c ∈ a.value.inner, c.Has T

variable {T T' : Trait}

namespace Node

theorem has_iff {n : Node} :
    n.Has T ↔ T.node n ∧ (∀ a ∈ n.attrs, a.Has T) ∧ ∀ c ∈ n.children, c.Has T := by
  rw [Has, everywhere_iff]
  constructor
  · rintro ⟨⟨hn, ha⟩, hi, hc⟩
    exact ⟨hn, fun a hm => ⟨ha a hm, hi a hm⟩, hc⟩
  · rintro ⟨hn, ha, hc⟩
    exact ⟨⟨hn, fun a hm => (ha a hm).1⟩, fun a hm => (ha a hm).2, hc⟩

theorem has_of_leaf {n : Node} (hs : Scope.of? n = none) (h : T.node n) : n.Has T := by
  refine has_iff.mpr ⟨h, ?_, ?_⟩
  · rw [attrs_of_leaf hs]
    exact List.forall_mem_nil _
  · rw [children_of_leaf hs]
    exact List.forall_mem_nil _

theorem has_withParts {n : Node} (h : T.node n) {attrs : List (Attr Node)} {children : List Node}
    (ha : ∀ a ∈ attrs, a.Has T) (hc : ∀ c ∈ children, c.Has T) :
    (n.withParts attrs children).Has T := by
  have hnode := T.parts attrs children h
  cases n with
  | tag | fragment => exact has_iff.mpr ⟨hnode, ha, hc⟩
  | template | block | stack | push => exact has_iff.mpr ⟨hnode, List.forall_mem_nil _, hc⟩
  | raw | directive | echo | host => exact has_of_leaf rfl hnode

end Node

theorem Attr.has_withInner {a : Attr Node} (h : T.attr a) {nodes : List Node}
    (hn : ∀ c ∈ nodes, c.Has T) : Attr.Has T { a with value := a.value.withInner nodes } := by
  refine ⟨T.value _ h, ?_⟩
  obtain ⟨name, value, o⟩ := a
  cases value with
  | bare | unquoted => exact List.forall_mem_nil _
  | quoted | dynamic => exact hn

/-- Attributes whose values were rewritten have the trait if the attributes have it and what has come
into the values. -/
theorem Attr.has_of_rewritten {attrs attrs' : List (Attr Node)}
    (h : List.Forall₂ (fun a b => ∃ nodes, b = { a with value := a.value.withInner nodes } ∧
      ∀ c ∈ nodes, c.Has T) attrs attrs') (ha : ∀ a ∈ attrs, T.attr a) :
    ∀ b ∈ attrs', b.Has T := by
  induction h with
  | nil => exact List.forall_mem_nil _
  | cons hab _ ih =>
    obtain ⟨nodes, rfl, hn⟩ := hab
    rw [List.forall_mem_cons] at ha ⊢
    exact ⟨Attr.has_withInner ha.1 hn, ih ha.2⟩

theorem Attr.Has.content {a : Attr Node} (h : a.Has T) :
    ∀ c ∈ a.value.content a.origin, c.Has T := by
  obtain ⟨name, value, o⟩ := a
  cases value with
  | bare => exact List.forall_mem_nil _
  | unquoted text => exact List.forall_mem_singleton.mpr (Node.has_of_leaf rfl (T.content text h.1))
  | quoted | dynamic => exact h.2

namespace Node

theorem attachAll_eq (r : Origin) (nodes : List Node) : attachAll r nodes = nodes.map (attach r) := by
  induction nodes with
  | nil => rfl
  | cons n nodes ih => rw [attachAll, ih, List.map_cons]

theorem attachAttrs_eq (r : Origin) (attrs : List (Attr Node)) : attachAttrs r attrs =
    attrs.map fun a => ⟨a.name, a.value.withInner (a.value.inner.map (attach r)),
      a.origin.attach r⟩ := by
  induction attrs with
  | nil => rfl
  | cons a attrs ih =>
    obtain ⟨name, value, o⟩ := a
    cases value <;>
      simp [attachAttrs, attachAttr, attachValue, AttrValue.withInner, AttrValue.inner,
        attachAll_eq, ih]

theorem Has.attach {r : Origin} (hT : T'.Attaches r T) (n : Node) (h : n.Has T') :
    (n.attach r).Has T := by
  induction n using byParts with
  | parts n iha ihc =>
    obtain ⟨hn, ha, hc⟩ := has_iff.mp h
    have hall : ∀ x ∈ attachAll r n.children, x.Has T := by
      rw [attachAll_eq]
      exact List.forall_mem_map.mpr fun c hm => ihc c hm (hc c hm)
    have hattrs : ∀ a ∈ attachAttrs r n.attrs, a.Has T := by
      rw [attachAttrs_eq]
      refine List.forall_mem_map.mpr fun a hm => ?_
      have hkept : T.attr ⟨a.name, a.value, a.origin.attach r⟩ := hT.attr _ _ _ (ha a hm).1
      have hinner : ∀ c ∈ a.value.inner.map (Node.attach r), c.Has T :=
        List.forall_mem_map.mpr fun c hc => iha a hm c hc ((ha a hm).2 c hc)
      refine ⟨T.value (a := ⟨a.name, a.value, a.origin.attach r⟩) _ hkept, ?_⟩
      cases hv : a.value with
      | bare | unquoted => exact List.forall_mem_nil _
      | quoted | dynamic =>
        rw [hv] at hinner
        exact hinner
    have hhere := hT.node n hn
    cases n with
    | tag | fragment => exact has_iff.mpr ⟨hhere, hattrs, hall⟩
    | template | block | stack | push => exact has_iff.mpr ⟨hhere, List.forall_mem_nil _, hall⟩
    | raw | directive | echo | host => exact has_of_leaf rfl hhere

theorem Has.attachAll {r : Origin} (hT : T'.Attaches r T) {nodes : List Node}
    (h : ∀ n ∈ nodes, n.Has T') : ∀ n ∈ attachAll r nodes, n.Has T := by
  rw [attachAll_eq]
  exact List.forall_mem_map.mpr fun n hn => (h n hn).attach hT n

theorem Has.contents {n : Node} (h : n.Has T) : ∀ c ∈ n.contents, c.Has T := by
  cases n with
  | template children o => exact (has_iff.mp h).2.2
  | _ => exact List.forall_mem_singleton.mpr h

end Node

end Lamina
