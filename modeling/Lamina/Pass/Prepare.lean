import Lamina.Session

/-! The passes that turn reserved elements into constructs: `attr:` children into attributes,
`block:` elements into slots, `stack:` elements into stacks and contributions, and `hidden`
elements into nothing. -/

namespace Lamina.Pass

def malformed {α : Type} (origin : Origin) (fault : ParseFault) : WalkM α :=
  throw (.parse fault origin.path origin.line none)

def attrChild? : Node → Option String
  | .tag name _ _ _ _ => Node.suffix? "attr" name
  | _ => none

/-- The attributes that children stand for, and the other children; an attribute without a name
is reported with its origin. -/
def splitAttrs : List Node → Except Origin (List (Attr Node) × List Node)
  | [] => .ok ([], [])
  | .tag name attrs children closing o :: rest =>
    match Node.suffix? "attr" name with
    | none => (splitAttrs rest).map fun (as, ns) => (as, .tag name attrs children closing o :: ns)
    | some attr =>
      if attr.isEmpty then .error o
      else (splitAttrs rest).map fun (as, ns) => (⟨attr, .quoted '"' children, o⟩ :: as, ns)
  | node :: rest => (splitAttrs rest).map fun (as, ns) => (as, node :: ns)

theorem weight_splitAttrs {nodes : List Node} {as ns}
    (h : splitAttrs nodes = .ok (as, ns)) :
    Node.weightAttrs as + Node.weightAll ns ≤ Node.weightAll nodes := by
  have map_ok {α β : Type} {x : Except Origin α} {f : α → β} {b : β}
      (h : x.map f = .ok b) : ∃ a, x = .ok a ∧ f a = b := by
    cases x with
    | error => cases h
    | ok a => exact ⟨a, rfl, Except.ok.inj h⟩
  fun_induction splitAttrs nodes generalizing as ns with
  | case1 => cases h; simp [Node.weightAttrs, Node.weightAll]
  | case2 _ _ _ _ _ _ _ ih | case5 _ _ _ ih =>
    obtain ⟨⟨a, b⟩, hr, he⟩ := map_ok h
    cases he
    have := ih hr
    simp only [Node.weightAll]
    omega
  | case3 => cases h
  | case4 name attrs children closing o rest _ _ _ ih =>
    obtain ⟨⟨a, b⟩, hr, he⟩ := map_ok h
    cases he
    have := ih hr
    simp only [Node.weightAll, Node.weightAttrs, Node.weightAttr, Node.weightValue, Node.weight]
    omega

/-- Children that stand for attributes become attributes of their parent. -/
def attrTags : Pass := fun _ => .onEnter fun _ n =>
  match n with
  | .tag name attrs children closing o =>
    match h : splitAttrs children with
    | .error origin => malformed origin .attributeNameMissing
    | .ok (more, rest) =>
      pure (.keep (.tag name (attrs ++ more) rest closing o)
        (by
          have := weight_splitAttrs h
          simp only [Node.weight, Node.weightAttrs_append]
          omega) true)
  | n => pure (.go n)

def blockTags : Pass := fun _ => .onEnter fun _ n =>
  match n with
  | .tag tag attrs children closing o =>
    match Node.suffix? "block" tag with
    | none => pure (.go (.tag tag attrs children closing o))
    | some name =>
      if name.isEmpty then malformed o .blockNameMissing
      else
        pure (.keep (.block name children o)
          (by simp only [Node.weight]; omega) true)
  | n => pure (.go n)

def hiddenTags : Pass := fun _ => .onEnter fun _ n =>
  match n with
  | .tag "hidden" .. => pure (.replace [])
  | n => pure (.go n)

def stackTags : Pass := fun _ => .onEnter fun _ n =>
  match n with
  | .tag tag attrs children closing o =>
    match Node.suffix? "stack" tag with
    | none => pure (.go (.tag tag attrs children closing o))
    | some operation =>
      match (Attr.literal? "name" attrs).filter (!·.isEmpty) with
      | none => malformed o (.stackNameMissing tag)
      | some name =>
        if operation = "collect" then
          pure (.keep (.stack name children o)
            (by simp only [Node.weight]; omega) true)
        else if operation = "push" || operation = "prepend" then
          pure (.keep (.push name (operation == "prepend") children o)
            (by simp only [Node.weight]; omega) true)
        else malformed o (.unknownStackOperation operation)
  | n => pure (.go n)

def prepare : List Pass := [attrTags, blockTags, hiddenTags, stackTags]

end Lamina.Pass
