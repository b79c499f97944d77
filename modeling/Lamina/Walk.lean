import Lamina.Node.Weight
import Lamina.Scope

/-! Walking a tree. Every visitor enters a node before anything below it is walked and leaves it
afterwards, with the scopes that enclose the node; attributes come before children. A visitor may
change the node it is at, stop the walk from going below it, or put other nodes in its place,
which are not walked. -/

namespace Lamina

/-- The outcome of entering `n`: the node, not heavier than before, and whether to go below it, or
the nodes in its place. -/
inductive Entered (n : Node)
  | keep (node : Node) (light : node.weight ≤ n.weight) (descend : Bool)
  | replace (nodes : List Node)

/-- The outcome of leaving a node. -/
inductive Left
  | keep (node : Node)
  | replace (nodes : List Node)

namespace Entered

def go (n : Node) : Entered n := keep n (Nat.le_refl _) true

def skip (n : Node) : Entered n := keep n (Nat.le_refl _) false

end Entered

structure Visitor (m : Type → Type) where
  enter : List Scope → (n : Node) → m (Entered n)
  leave : List Scope → Node → m Left

namespace Walk

variable {m : Type → Type} [Monad m]

def enterAll (scopes : List Scope) (n : Node) : List (Visitor m) → m (Entered n)
  | [] => pure (.go n)
  | visitor :: rest => do
    match ← visitor.enter scopes n with
    | .replace nodes => pure (.replace nodes)
    | .keep n' light descend =>
      match ← enterAll scopes n' rest with
      | .replace nodes => pure (.replace nodes)
      | .keep n'' light' descend' =>
        pure (.keep n'' (Nat.le_trans light' light) (descend && descend'))

def leaveAll (scopes : List Scope) (n : Node) : List (Visitor m) → m (List Node)
  | [] => pure [n]
  | visitor :: rest => do
    match ← visitor.leave scopes n with
    | .replace nodes => pure nodes
    | .keep n' => leaveAll scopes n' rest

mutual

def node (visitors : List (Visitor m)) (scopes : List Scope) (n : Node) : m (List Node) := do
  match ← enterAll scopes n visitors with
  | .replace nodes => pure nodes
  | .keep n' _ descend =>
    let n'' ← if descend then below visitors scopes n' else pure n'
    leaveAll scopes n'' visitors
termination_by 4 * n.weight + 1
decreasing_by omega

def below (visitors : List (Visitor m)) (scopes : List Scope) (n : Node) : m Node := do
  match n with
  | .template children o =>
    return .template (← list visitors (scopes ++ [.template o.path]) children) o
  | .tag name attrs children closing o =>
    let inner := scopes ++ [.tag name]
    let attrs ← attrList visitors inner attrs
    return .tag name attrs (← list visitors inner children) closing o
  | .block name children o =>
    return .block name (← list visitors (scopes ++ [.block name]) children) o
  | .stack name children o =>
    return .stack name (← list visitors (scopes ++ [.stack name]) children) o
  | .push name prepend children o =>
    return .push name prepend (← list visitors (scopes ++ [.push name]) children) o
  | .fragment path attrs children o =>
    let inner := scopes ++ [.fragment path]
    let attrs ← attrList visitors inner attrs
    return .fragment path attrs (← list visitors inner children) o
  | .raw text o => return .raw text o
  | .directive name values body o => return .directive name values body o
  | .echo expr escape o => return .echo expr escape o
  | .host code o => return .host code o
termination_by 4 * n.weight
decreasing_by
  all_goals
    simp only [Node.weight]
    omega

def list (visitors : List (Visitor m)) (scopes : List Scope) (nodes : List Node) :
    m (List Node) := do
  match nodes with
  | [] => return []
  | n :: rest =>
    let first ← node visitors scopes n
    let rest ← list visitors scopes rest
    return first ++ rest
termination_by 4 * Node.weightAll nodes + 2
decreasing_by
  all_goals
    have := Node.weight_pos n
    simp only [Node.weightAll]
    omega

def attrList (visitors : List (Visitor m)) (scopes : List Scope) (attrs : List (Attr Node)) :
    m (List (Attr Node)) := do
  match attrs with
  | [] => return []
  | ⟨name, value, o⟩ :: rest =>
    let value ← attrValue visitors (scopes ++ [.attr name]) value
    let rest ← attrList visitors scopes rest
    return ⟨name, value, o⟩ :: rest
termination_by 4 * Node.weightAttrs attrs
decreasing_by
  all_goals
    simp only [Node.weightAttrs, Node.weightAttr]
    omega

def attrValue (visitors : List (Visitor m)) (scopes : List Scope) (value : AttrValue Node) :
    m (AttrValue Node) := do
  match value with
  | .bare => return .bare
  | .unquoted text => return .unquoted text
  | .quoted quote nodes => return .quoted quote (← list visitors scopes nodes)
  | .dynamic nodes => return .dynamic (← list visitors scopes nodes)
termination_by 4 * Node.weightValue value + 3
decreasing_by
  all_goals
    simp only [Node.weightValue]
    omega

end

def root (visitors : List (Visitor m)) (n : Node) : m Node := do
  match ← node visitors [] n with
  | [.template children o] => return .template children o
  | nodes => return .template nodes n.origin

end Walk

end Lamina
