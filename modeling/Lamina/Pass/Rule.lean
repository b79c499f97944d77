import Lamina.Session

/-! Passes made to order: one that records its visits, and one that acts on nodes of a kind. -/

namespace Lamina.Pass

def record : Pass := fun _ =>
  let note (leaving : Bool) (scopes : List Scope) (n : Node) : WalkM Unit :=
    modifyThe Session (·.noteVisit ⟨leaving, n.kind, n.name, scopes⟩)
  { enter := fun scopes n => do
      note false scopes n
      return .go n
    leave := fun scopes n => do
      note true scopes n
      return .keep n }

/-- What a rule does to a node. -/
inductive Action
  | skip
  | remove
  | unwrap
  | replace (text : String)
  | load (path : String)
  deriving DecidableEq, Repr

/-- An action on the nodes of a kind, and of a name if one is given, on entering or leaving. -/
structure Rule where
  leaving : Bool
  kind : String
  name : Option String
  action : Action
  deriving DecidableEq, Repr

def Rule.applies (r : Rule) (leaving : Bool) (n : Node) : Bool :=
  r.leaving == leaving && n.kind == r.kind && r.name.all (· == n.name)

/-- The nodes an action puts in place of a node; skipping leaves the node there. -/
def Action.nodes? (resolver : Resolver) (n : Node) : Action → WalkM (Option (List Node))
  | .skip => return none
  | .remove => return some []
  | .unwrap => return some n.children
  | .replace text => return some [.raw text n.origin]
  | .load path => do
    let root ← resolver.load path n.origin
    return some [root]

def rule (r : Rule) : Pass := fun resolver =>
  { enter := fun _ n => do
      if r.applies false n then
        match ← r.action.nodes? resolver n with
        | some nodes => return .replace nodes
        | none => return .skip n
      else return .go n
    leave := fun _ n => do
      if r.applies true n then
        match ← r.action.nodes? resolver n with
        | some nodes => return .replace nodes
        | none => return .keep n
      else return .keep n }

end Lamina.Pass
