import Lamina.Node
import Lamina.Table

/-! Fillings give content to the slots of a tree. Inside a filling, the slot named `parent` stands
for the content the filling takes the place of. -/

namespace Lamina

def parentSlot : String := "parent"

def contentSlot : String := "content"

abbrev Fillings := Table String (List Node)

namespace Node

mutual

/-- The nodes of a filling's node, with the replaced content in place of the parent slot. -/
def withParent (content : List Node) : Node → List Node
  | block name children o =>
    if name = parentSlot then content else [block name (withParentAll content children) o]
  | template children o => [template (withParentAll content children) o]
  | tag name attrs children closing o =>
    [tag name attrs (withParentAll content children) closing o]
  | stack name children o => [stack name (withParentAll content children) o]
  | push name prepend children o => [push name prepend (withParentAll content children) o]
  | fragment path attrs children o => [fragment path attrs (withParentAll content children) o]
  | raw text o => [raw text o]
  | directive name values body o => [directive name values body o]
  | echo expr escape o => [echo expr escape o]
  | host code o => [host code o]

def withParentAll (content : List Node) : List Node → List Node
  | [] => []
  | node :: rest => withParent content node ++ withParentAll content rest

end

mutual

/-- The tree with its slots filled; nothing inside a filling is filled again. -/
def fill (f : Fillings) : Node → Node
  | block name children o =>
    match f.get? name with
    | some content => block name (withParentAll children content) o
    | none => block name (fillAll f children) o
  | template children o => template (fillAll f children) o
  | tag name attrs children closing o =>
    tag name (fillAttrs f attrs) (fillAll f children) closing o
  | stack name children o => stack name (fillAll f children) o
  | push name prepend children o => push name prepend (fillAll f children) o
  | fragment path attrs children o => fragment path attrs (fillAll f children) o
  | raw text o => raw text o
  | directive name values body o => directive name values body o
  | echo expr escape o => echo expr escape o
  | host code o => host code o

def fillAll (f : Fillings) : List Node → List Node
  | [] => []
  | node :: rest => fill f node :: fillAll f rest

def fillAttrs (f : Fillings) : List (Attr Node) → List (Attr Node)
  | [] => []
  | attr :: rest => fillAttr f attr :: fillAttrs f rest

def fillAttr (f : Fillings) : Attr Node → Attr Node
  | ⟨name, value, o⟩ => ⟨name, fillValue f value, o⟩

def fillValue (f : Fillings) : AttrValue Node → AttrValue Node
  | .bare => .bare
  | .unquoted text => .unquoted text
  | .quoted quote nodes => .quoted quote (fillAll f nodes)
  | .dynamic nodes => .dynamic (fillAll f nodes)

end

mutual

def filled (f : Fillings) : Node → List String
  | block name children _ => if f.contains name then [name] else filledAll f children
  | template children _ => filledAll f children
  | tag _ attrs children _ _ => filledAttrs f attrs ++ filledAll f children
  | stack _ children _ => filledAll f children
  | push _ _ children _ => filledAll f children
  | fragment _ _ children _ => filledAll f children
  | raw .. => []
  | directive .. => []
  | echo .. => []
  | host .. => []

def filledAll (f : Fillings) : List Node → List String
  | [] => []
  | node :: rest => filled f node ++ filledAll f rest

def filledAttrs (f : Fillings) : List (Attr Node) → List String
  | [] => []
  | attr :: rest => filledAttr f attr ++ filledAttrs f rest

def filledAttr (f : Fillings) : Attr Node → List String
  | ⟨_, value, _⟩ => filledValue f value

def filledValue (f : Fillings) : AttrValue Node → List String
  | .bare => []
  | .unquoted _ => []
  | .quoted _ nodes => filledAll f nodes
  | .dynamic nodes => filledAll f nodes

end

def contents : Node → List Node
  | template children _ => children
  | node => [node]

end Node

namespace Fillings

/-- Attributes fill the slots of their names, except those named in `skip`. -/
def ofAttrs (skip : List String) (attrs : List (Attr Node)) : Fillings :=
  attrs.foldl (fun f attr =>
    if attr.name.isEmpty || skip.contains attr.name then f
    else f.set attr.name (attr.value.content attr.origin)) {}

def addBlock (f : Fillings) : Node → Fillings
  | .block name children _ => f.set name children
  | _ => f

def isBlock : Node → Bool
  | .block .. => true
  | _ => false

/-- What an element fills in the template it stands for: its attributes, the slots among its
children, and its other children unless they are blank. -/
def ofElement (attrs : List (Attr Node)) (children : List Node) : Fillings :=
  let f := children.foldl addBlock (ofAttrs [] attrs)
  let loose := children.filter (!isBlock ·)
  if loose.all Node.isBlankText then f else f.set contentSlot loose

end Fillings

end Lamina
