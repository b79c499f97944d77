import Lamina.Origin
import Lamina.Text.Blank
import Lamina.Text.Search

/-! The tree of a template. Every node and every attribute knows the origin it was written at. -/

namespace Lamina

/-- How an element was ended. -/
inductive Closing
  | pair
  | selfClosing
  | void
  deriving DecidableEq, Repr

/-- The value of an attribute; a dynamic value is a construct standing in place of an attribute. -/
inductive AttrValue (ν : Type)
  | bare
  | unquoted (text : String)
  | quoted (quote : Char) (nodes : List ν)
  | dynamic (nodes : List ν)
  deriving DecidableEq, Repr

/-- An attribute; the name of a dynamic one is empty. -/
structure Attr (ν : Type) where
  name : String
  value : AttrValue ν
  origin : Origin
  deriving DecidableEq, Repr

/-- Constructs of a template. A `block` is a slot with its default content, a `stack` collects
what `push` nodes contribute, and a `fragment` stands for another template. -/
inductive Node
  | template (children : List Node) (origin : Origin)
  | raw (text : String) (origin : Origin)
  | tag (name : String) (attrs : List (Attr Node)) (children : List Node) (closing : Closing)
      (origin : Origin)
  | directive (name : String) (values : List String) (body : Option String) (origin : Origin)
  | echo (expr : String) (escape : Bool) (origin : Origin)
  | host (code : String) (origin : Origin)
  | block (name : String) (children : List Node) (origin : Origin)
  | stack (name : String) (children : List Node) (origin : Origin)
  | push (name : String) (prepend : Bool) (children : List Node) (origin : Origin)
  | fragment (path : String) (attrs : List (Attr Node)) (children : List Node) (origin : Origin)
  deriving Repr

instance : Inhabited Node := ⟨.raw "" (.of "" 0 .html "")⟩

namespace AttrValue

def inner {ν : Type} : AttrValue ν → List ν
  | quoted _ nodes | dynamic nodes => nodes
  | bare | unquoted _ => []

def content (origin : Origin) : AttrValue Node → List Node
  | bare => []
  | unquoted text => [.raw text origin]
  | quoted _ nodes | dynamic nodes => nodes

def literalText? : List Node → Option String
  | [] => some ""
  | .raw text _ :: rest => (literalText? rest).map (text ++ ·)
  | _ :: _ => none

def literal? : AttrValue Node → Option String
  | bare => some ""
  | unquoted text => some text
  | quoted _ nodes => literalText? nodes
  | dynamic _ => none

end AttrValue

namespace Attr

def find? (name : String) (attrs : List (Attr Node)) : Option (Attr Node) :=
  List.find? (fun attr => attr.name == name) attrs

def literal? (name : String) (attrs : List (Attr Node)) : Option String :=
  (find? name attrs).bind fun attr => attr.value.literal?

end Attr

namespace Node

def origin : Node → Origin
  | template _ o | raw _ o | tag _ _ _ _ o | directive _ _ _ o | echo _ _ o | host _ o | block _ _ o
  | stack _ _ o | push _ _ _ o | fragment _ _ _ o => o

def kind : Node → String
  | template .. => "template"
  | raw .. => "raw"
  | tag .. => "tag"
  | directive .. => "directive"
  | echo .. => "echo"
  | host .. => "host"
  | block .. => "block"
  | stack .. => "stack"
  | push .. => "push"
  | fragment .. => "import"

def children? : Node → Option (List Node)
  | template children _ | tag _ _ children _ _ | block _ children _ | stack _ children _
  | push _ _ children _ | fragment _ _ children _ => some children
  | raw .. | directive .. | echo .. | host .. => none

def children (n : Node) : List Node := n.children?.getD []

def attrs : Node → List (Attr Node)
  | tag _ attrs _ _ _ | fragment _ attrs _ _ => attrs
  | _ => []

def name : Node → String
  | tag name _ _ _ _ | directive name _ _ _ | block name _ _ | stack name _ _ | push name _ _ _ =>
    name
  | fragment path _ _ _ => path
  | template .. | raw .. | echo .. | host .. => ""

def suffix? (family name : String) : Option String :=
  ((family.toList ++ [':']).isPrefixOf? name.toList).map String.ofList

mutual

/-- The tree as it stands after `reference` has pulled it in: the chain of every origin in it,
attribute values included, goes on with `reference`. -/
def attach (reference : Origin) : Node → Node
  | template children o => template (attachAll reference children) (o.attach reference)
  | raw text o => raw text (o.attach reference)
  | tag name attrs children closing o =>
    tag name (attachAttrs reference attrs) (attachAll reference children) closing
      (o.attach reference)
  | directive name values body o => directive name values body (o.attach reference)
  | echo expr escape o => echo expr escape (o.attach reference)
  | host code o => host code (o.attach reference)
  | block name children o => block name (attachAll reference children) (o.attach reference)
  | stack name children o => stack name (attachAll reference children) (o.attach reference)
  | push name prepend children o =>
    push name prepend (attachAll reference children) (o.attach reference)
  | fragment path attrs children o =>
    fragment path (attachAttrs reference attrs) (attachAll reference children)
      (o.attach reference)

def attachAll (reference : Origin) : List Node → List Node
  | [] => []
  | node :: rest => attach reference node :: attachAll reference rest

def attachAttrs (reference : Origin) : List (Attr Node) → List (Attr Node)
  | [] => []
  | attr :: rest => attachAttr reference attr :: attachAttrs reference rest

def attachAttr (reference : Origin) : Attr Node → Attr Node
  | ⟨name, value, o⟩ => ⟨name, attachValue reference value, o.attach reference⟩

def attachValue (reference : Origin) : AttrValue Node → AttrValue Node
  | .bare => .bare
  | .unquoted text => .unquoted text
  | .quoted quote nodes => .quoted quote (attachAll reference nodes)
  | .dynamic nodes => .dynamic (attachAll reference nodes)

end

def isBlankText : Node → Bool
  | raw text _ => Text.allBlank text.toList
  | _ => false

end Node

end Lamina
