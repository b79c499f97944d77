import Lamina.Node

/-! Scopes: the constructs that enclose a node, from the root inwards. -/

namespace Lamina

inductive Scope
  | template (file : String)
  | tag (name : String)
  | attr (name : String)
  | block (name : String)
  | stack (name : String)
  | push (name : String)
  | fragment (path : String)
  deriving DecidableEq, Repr

namespace Scope

def of? : Node → Option Scope
  | .template _ o => some (template o.path)
  | .tag name _ _ _ _ => some (tag name)
  | .block name _ _ => some (block name)
  | .stack name _ _ => some (stack name)
  | .push name _ _ _ => some (push name)
  | .fragment path _ _ _ => some (fragment path)
  | .raw .. | .directive .. | .echo .. | .host .. => none

def text : Scope → String
  | template file => "Template:" ++ file
  | tag name => "Tag:" ++ name
  | attr name => "Attr:" ++ name
  | block name => "Block:" ++ name
  | stack name => "Stack:" ++ name
  | push name => "Push:" ++ name
  | fragment path => "Import:" ++ path

def isAttr : Scope → Bool
  | attr _ => true
  | _ => false

def isTagOf (names : List String) : Scope → Bool
  | tag name => names.any (Text.sameName · name)
  | _ => false

end Scope

end Lamina
