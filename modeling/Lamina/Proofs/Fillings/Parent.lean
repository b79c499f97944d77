import Lamina.Proofs.Fillings

/-! The parent slot of a filling. Wherever the slot stands among children, the replaced content comes
in its place; in the value of an attribute it stays as it is. -/

namespace Lamina

namespace Node

def isParent (n : Node) : Bool := n.slot? == some parentSlot

theorem withParent_eq (content : List Node) (n : Node) :
    n.withParent content =
      if n.isParent then content else [n.withParts n.attrs (withParentAll content n.children)] := by
  cases n with
  | block name children o =>
    by_cases h : name = parentSlot
    · simp [withParent, isParent, slot?, h]
    · rw [withParent, if_neg h, if_neg (by simpa [isParent, slot?] using h)]
      rfl
  | _ => rfl

theorem withParentAll_append (content a b : List Node) :
    withParentAll content (a ++ b) = withParentAll content a ++ withParentAll content b := by
  simp only [withParentAll_eq, List.flatMap_append]

mutual

/-- The parent slots that stand in attribute values, in document order. What is inside of a parent
slot outside of them does not count. -/
def sheltered : Node → List Node
  | block name children _ => if name = parentSlot then [] else shelteredAll children
  | tag _ attrs children _ _ => (nodesAttrs attrs).filter isParent ++ shelteredAll children
  | fragment _ attrs children _ => (nodesAttrs attrs).filter isParent ++ shelteredAll children
  | template children _ => shelteredAll children
  | stack _ children _ => shelteredAll children
  | push _ _ children _ => shelteredAll children
  | raw .. => []
  | directive .. => []
  | echo .. => []
  | host .. => []

def shelteredAll : List Node → List Node
  | [] => []
  | node :: rest => sheltered node ++ shelteredAll rest

end

theorem shelteredAll_eq (nodes : List Node) : shelteredAll nodes = nodes.flatMap sheltered := by
  induction nodes with
  | nil => rfl
  | cons n nodes ih => rw [shelteredAll, ih, List.flatMap_cons]

theorem sheltered_eq (n : Node) :
    n.sheltered =
      if n.isParent then [] else (nodesAttrs n.attrs).filter isParent ++ shelteredAll n.children := by
  cases n with
  | block name children o =>
    by_cases h : name = parentSlot
    · simp [sheltered, isParent, slot?, h]
    · rw [sheltered, if_neg h, if_neg (by simpa [isParent, slot?] using h)]
      rfl
  | _ => rfl

theorem isParent_withParts (n : Node) (attrs : List (Attr Node)) (children : List Node) :
    (n.withParts attrs children).isParent = n.isParent := by
  cases n <;> rfl

variable {content : List Node}

theorem parents_withParentAll_of {nodes : List Node}
    (h : ∀ n ∈ nodes, (nodesAll (n.withParent content)).filter isParent = n.sheltered) :
    (nodesAll (withParentAll content nodes)).filter isParent = shelteredAll nodes := by
  rw [nodesAll_eq, withParentAll_eq, List.flatMap_assoc, List.filter_flatMap, shelteredAll_eq]
  refine List.flatMap_congr fun n hn => ?_
  rw [← nodesAll_eq]
  exact h n hn

theorem parents_withParent (hcontent : (nodesAll content).filter isParent = []) (n : Node) :
    (nodesAll (n.withParent content)).filter isParent = n.sheltered := by
  induction n using byParts with
  | parts n _ ih =>
    rw [withParent_eq, sheltered_eq]
    by_cases hn : n.isParent = true
    · rw [if_pos hn, if_pos hn, hcontent]
    · have hbelow : nodesAll [n.withParts n.attrs (withParentAll content n.children)] =
          n.withParts n.attrs (withParentAll content n.children) ::
            (nodesAttrs n.attrs ++ nodesAll (withParentAll content n.children)) := by
        rw [nodesAll, nodesAll, List.append_nil, nodes_eq]
        cases n <;> rfl
      rw [if_neg hn, if_neg hn, hbelow, List.filter_cons_of_neg (by rwa [isParent_withParts]),
        List.filter_append, parents_withParentAll_of ih]

end Node

/-- A list of siblings, one of them without its children. -/
structure Hollow where
  before : List Node
  around : Node
  after : List Node

namespace Hollow

/-- The siblings with the nodes for these children. -/
def close (g : Hollow) (nodes : List Node) : List Node :=
  g.before ++ g.around.withParts g.around.attrs nodes :: g.after

/-- The nodes as children in the last list, that list as children in the one before it, and so on. -/
def closeAll (hollows : List Hollow) (nodes : List Node) : List Node := hollows.foldr close nodes

def withParent (content : List Node) (g : Hollow) : Hollow :=
  ⟨Node.withParentAll content g.before, g.around, Node.withParentAll content g.after⟩

theorem withParentAll_close (content : List Node) {g : Hollow} (hg : g.around.isParent = false)
    (nodes : List Node) :
    Node.withParentAll content (g.close nodes) =
      (g.withParent content).close (Node.withParentAll content nodes) := by
  have haround : (g.around.withParts g.around.attrs nodes).withParent content =
      [g.around.withParts g.around.attrs (Node.withParentAll content nodes)] := by
    rw [Node.withParent_eq, Node.isParent_withParts, hg, if_neg Bool.false_ne_true,
      Node.withParts_withParts]
    cases g.around <;> rfl
  rw [close, Node.withParentAll_append, Node.withParentAll, haround]
  rfl

theorem withParentAll_closeAll (content : List Node) {hollows : List Hollow}
    (houter : ∀ g ∈ hollows, g.around.isParent = false) (nodes : List Node) :
    Node.withParentAll content (closeAll hollows nodes) =
      closeAll (hollows.map (withParent content)) (Node.withParentAll content nodes) := by
  induction hollows with
  | nil => rfl
  | cons g hollows ih =>
    rw [List.forall_mem_cons] at houter
    rw [closeAll, List.foldr_cons, withParentAll_close content houter.1]
    exact congrArg (g.withParent content).close (ih houter.2)

end Hollow

namespace Node

/-- A parent slot of a filling that stands among children gives way, in its place, to the content
that the filling replaces. In attribute values parent slots stay, so none is left exactly if none
stood there. -/
theorem parent_gives_way_among_children (content filling : List Node)
    (hcontent : ∀ x ∈ nodesAll content, x.isParent = false) :
    (∀ (hollows : List Hollow) (before after children : List Node) (o : Origin),
      (∀ g ∈ hollows, g.around.isParent = false) →
      filling = Hollow.closeAll hollows (before ++ block parentSlot children o :: after) →
      withParentAll content filling = Hollow.closeAll (hollows.map (Hollow.withParent content))
        (withParentAll content before ++ content ++ withParentAll content after)) ∧
    (nodesAll (withParentAll content filling)).filter isParent = shelteredAll filling ∧
    ((∀ x ∈ nodesAll (withParentAll content filling), x.isParent = false) ↔
      shelteredAll filling = []) := by
  have hnone : (nodesAll content).filter isParent = [] :=
    List.filter_eq_nil_iff.mpr fun x hx => by simp [hcontent x hx]
  have hleft := parents_withParentAll_of fun n (_ : n ∈ filling) => parents_withParent hnone n
  refine ⟨?_, hleft, ?_⟩
  · rintro hollows before after children o houter rfl
    rw [Hollow.withParentAll_closeAll content houter, withParentAll_append, withParentAll, withParent,
      if_pos rfl, List.append_assoc]
  · rw [← hleft, List.filter_eq_nil_iff]
    simp only [Bool.not_eq_true]

/-- A paragraph that has the replaced content between two texts. -/
theorem parent_gives_way_among_children_paragraph :
    let o : Origin := .of "default/page.stm" 1 .html ""
    let content : List Node := [.raw "b" o, .raw "c" o]
    let filling := [tag "p" [] [.raw "a" o, .block parentSlot [] o, .raw "d" o] .pair o]
    withParentAll content filling =
        [tag "p" [] [.raw "a" o, .raw "b" o, .raw "c" o, .raw "d" o] .pair o] ∧
      ∀ x ∈ nodesAll (withParentAll content filling), x.isParent = false := by
  intro o content filling
  have h := parent_gives_way_among_children content filling (by decide)
  refine ⟨?_, h.2.2.mpr (by decide)⟩
  exact h.1 [⟨[], .tag "p" [] [] .pair o, []⟩] [.raw "a" o] [.raw "d" o] [] o (by decide) rfl

/-- A link whose title is the replaced content keeps the slot in its title. -/
theorem parent_in_attribute_value_stays :
    let o : Origin := .of "default/page.stm" 1 .html ""
    let content : List Node := [.raw "b" o]
    let filling := [tag "a" [⟨"title", .quoted '"' [.block parentSlot [] o], o⟩] [] .pair o]
    (nodesAll content).all (!·.isParent) = true ∧
      (nodesAll (withParentAll content filling)).any isParent = true := by
  decide

end Node

end Lamina
