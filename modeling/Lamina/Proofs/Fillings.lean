import Lamina.Proofs.Node.Trait
import Lamina.Proofs.Table

/-! Filling slots brings in nothing that is neither in the tree nor in the fillings, so a trait that
both have is a trait of the filled tree. -/

namespace Lamina

variable {T : Trait}

def Fillings.Has (T : Trait) (f : Fillings) : Prop :=
  ∀ name content, (name, content) ∈ f → ∀ c ∈ content, c.Has T

namespace Node

def slot? : Node → Option String
  | block name _ _ => some name
  | _ => none

theorem withParentAll_eq (content nodes : List Node) :
    withParentAll content nodes = nodes.flatMap (withParent content) := by
  induction nodes with
  | nil => rfl
  | cons n nodes ih => rw [withParentAll, ih, List.flatMap_cons]

theorem fillAll_eq (f : Fillings) (nodes : List Node) : fillAll f nodes = nodes.map (fill f) := by
  induction nodes with
  | nil => rfl
  | cons n nodes ih => rw [fillAll, ih, List.map_cons]

theorem fillAttrs_eq (f : Fillings) (attrs : List (Attr Node)) : fillAttrs f attrs =
    attrs.map fun a => { a with value := a.value.withInner (a.value.inner.map (fill f)) } := by
  induction attrs with
  | nil => rfl
  | cons a attrs ih =>
    obtain ⟨name, value, o⟩ := a
    cases value <;>
      simp [fillAttrs, fillAttr, fillValue, AttrValue.withInner, AttrValue.inner, fillAll_eq, ih]

theorem filledAll_eq (f : Fillings) (nodes : List Node) :
    filledAll f nodes = nodes.flatMap (filled f) := by
  induction nodes with
  | nil => rfl
  | cons n nodes ih => rw [filledAll, ih, List.flatMap_cons]

theorem filledAttrs_eq (f : Fillings) (attrs : List (Attr Node)) :
    filledAttrs f attrs = attrs.flatMap fun a => a.value.inner.flatMap (filled f) := by
  induction attrs with
  | nil => rfl
  | cons a attrs ih =>
    obtain ⟨_, value, _⟩ := a
    cases value <;> simp [filledAttrs, filledAttr, filledValue, filledAll_eq, AttrValue.inner, ih]

theorem Has.withParent {content : List Node} (hc : ∀ c ∈ content, c.Has T) (n : Node)
    (h : n.Has T) : ∀ x ∈ n.withParent content, x.Has T := by
  induction n using byParts with
  | parts n _ ih =>
    obtain ⟨hhere, ha, hn⟩ := has_iff.mp h
    have hall : ∀ x ∈ withParentAll content n.children, x.Has T := by
      intro x hx
      rw [withParentAll_eq] at hx
      obtain ⟨c, hm, hx⟩ := List.mem_flatMap.mp hx
      exact ih c hm (hn c hm) x hx
    have hkept := has_withParts hhere ha hall
    cases n with
    | block name children o =>
      rw [Node.withParent]
      split
      · exact hc
      · exact List.forall_mem_singleton.mpr hkept
    | template | tag | stack | push | fragment => exact List.forall_mem_singleton.mpr hkept
    | raw | directive | echo | host => exact List.forall_mem_singleton.mpr h

theorem Has.fill {f : Fillings} (hf : f.Has T) (n : Node) (h : n.Has T) : (n.fill f).Has T := by
  induction n using byParts with
  | parts n iha ihc =>
    obtain ⟨hhere, ha, hn⟩ := has_iff.mp h
    have hall : ∀ x ∈ fillAll f n.children, x.Has T := by
      rw [fillAll_eq]
      exact List.forall_mem_map.mpr fun c hm => ihc c hm (hn c hm)
    have hattrs : ∀ a ∈ fillAttrs f n.attrs, a.Has T := by
      rw [fillAttrs_eq]
      refine List.forall_mem_map.mpr fun a hm => Attr.has_withInner (ha a hm).1 ?_
      exact List.forall_mem_map.mpr fun c hc => iha a hm c hc ((ha a hm).2 c hc)
    cases n with
    | block name children o =>
      rw [Node.fill]
      split
      · next content hget =>
        have hcontent : ∀ x ∈ withParentAll children content, x.Has T := by
          intro x hx
          obtain ⟨c, hm, hx⟩ := List.mem_flatMap.mp (withParentAll_eq children content ▸ hx)
          exact (hf _ _ (Table.mem_of_get? hget) c hm).withParent hn c x hx
        exact has_withParts hhere ha hcontent
      · exact has_withParts hhere ha hall
    | tag => exact has_withParts hhere hattrs hall
    | template | stack | push | fragment => exact has_withParts hhere ha hall
    | raw | directive | echo | host => exact h

theorem Has.fillAll {f : Fillings} (hf : f.Has T) {nodes : List Node}
    (h : ∀ n ∈ nodes, n.Has T) : ∀ n ∈ fillAll f nodes, n.Has T := by
  rw [fillAll_eq]
  exact List.forall_mem_map.mpr fun n hn => (h n hn).fill hf n

end Node

namespace Fillings

theorem Has.set {f : Fillings} (hf : f.Has T) (name : String) {content : List Node}
    (hc : ∀ c ∈ content, c.Has T) : Fillings.Has T (Table.set f name content) := by
  intro name' content' h
  rcases Table.mem_set.mp h with h | h
  · cases h
    exact hc
  · exact hf name' content' h.1

theorem has_ofAttrs (skip : List String) {attrs : List (Attr Node)}
    (h : ∀ a ∈ attrs, a.Has T) : (ofAttrs skip attrs).Has T := by
  refine List.foldlRecOn attrs _ nofun fun f hf a ha => ?_
  split
  · exact hf
  · exact hf.set a.name (h a ha).content

theorem Has.addBlock {f : Fillings} (hf : f.Has T) {n : Node} (h : n.Has T) :
    (f.addBlock n).Has T := by
  cases n with
  | block name children o => exact hf.set name (Node.has_iff.mp h).2.2
  | _ => exact hf

theorem Has.addBlocks {f : Fillings} (hf : f.Has T) {nodes : List Node}
    (h : ∀ n ∈ nodes, n.Has T) : (nodes.foldl Fillings.addBlock f).Has T :=
  List.foldlRecOn nodes _ hf fun _ hg n hn => Has.addBlock hg (h n hn)

theorem has_ofElement {attrs : List (Attr Node)} {children : List Node}
    (ha : ∀ a ∈ attrs, a.Has T) (hc : ∀ c ∈ children, c.Has T) :
    (ofElement attrs children).Has T := by
  have hblocks := (has_ofAttrs [] ha).addBlocks hc
  rw [ofElement]
  split
  · exact hblocks
  · exact hblocks.set contentSlot fun c hm => hc c (List.mem_filter.mp hm).1

end Fillings

end Lamina
