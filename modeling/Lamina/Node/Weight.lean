import Lamina.Node

/-! The weight of a tree: one for each node and each attribute. -/

namespace Lamina.Node

mutual

def weight : Node → Nat
  | template children _ => 1 + weightAll children
  | tag _ attrs children _ _ => 1 + weightAttrs attrs + weightAll children
  | block _ children _ => 1 + weightAll children
  | stack _ children _ => 1 + weightAll children
  | push _ _ children _ => 1 + weightAll children
  | fragment _ attrs children _ => 1 + weightAttrs attrs + weightAll children
  | raw .. => 1
  | directive .. => 1
  | echo .. => 1
  | host .. => 1

def weightAll : List Node → Nat
  | [] => 0
  | node :: rest => weight node + weightAll rest

def weightAttrs : List (Attr Node) → Nat
  | [] => 0
  | attr :: rest => weightAttr attr + weightAttrs rest

def weightAttr : Attr Node → Nat
  | ⟨_, value, _⟩ => 1 + weightValue value

def weightValue : AttrValue Node → Nat
  | .bare => 0
  | .unquoted _ => 0
  | .quoted _ nodes => weightAll nodes
  | .dynamic nodes => weightAll nodes

end

theorem weight_pos (n : Node) : 0 < n.weight := by
  cases n <;> simp only [weight] <;> omega

theorem weightAttrs_append (a b : List (Attr Node)) :
    weightAttrs (a ++ b) = weightAttrs a + weightAttrs b := by
  induction a with
  | nil => simp [weightAttrs]
  | cons x a ih => simp [weightAttrs, ih]; omega

end Lamina.Node
