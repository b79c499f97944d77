import Lamina.Directive
import Lamina.Session

/-! The passes over a whole page: contributions go into their stacks, directives and echoes become
script code, and white space is tidied up. -/

namespace Lamina

open Lamina.Text

namespace Node

/-- What a stack holds: the latest prepended contribution first, then its own content, then the
other contributions in order. -/
def stackContent (contributions : List Contribution) (name : String) (own : List Node) :
    List Node :=
  let mine := contributions.filter (·.stack == name)
  (mine.filter (·.prepend)).reverse.flatMap (·.nodes) ++ own ++
    (mine.filter (!·.prepend)).flatMap (·.nodes)

mutual

def fillStacks (c : List Contribution) : Node → Node
  | stack name children o => stack name (stackContent c name children) o
  | template children o => template (fillStacksAll c children) o
  | tag name attrs children closing o => tag name attrs (fillStacksAll c children) closing o
  | block name children o => block name (fillStacksAll c children) o
  | push name prepend children o => push name prepend (fillStacksAll c children) o
  | fragment path attrs children o => fragment path attrs (fillStacksAll c children) o
  | raw text o => raw text o
  | directive name values body o => directive name values body o
  | echo expr escape o => echo expr escape o
  | host code o => host code o

def fillStacksAll (c : List Contribution) : List Node → List Node
  | [] => []
  | node :: rest => fillStacks c node :: fillStacksAll c rest

end

end Node

namespace Pass

/-- Contributions are taken out of the page and put into their stacks at its end. -/
def collect : Pass := fun _ => .onLeave fun scopes n => do
  match n with
  | .push name prepend children _ =>
    modify fun notes =>
      { notes with contributions := notes.contributions ++ [⟨name, prepend, children⟩] }
    return .replace []
  | .template children o =>
    if scopes.isEmpty then
      return .keep (.template (Node.fillStacksAll (← get).contributions children) o)
    else return .keep (.template children o)
  | n => return .keep n

def verbatim (name : String) (body : Option String) : String :=
  "@" ++ name ++ body.elim "" fun body => "(" ++ body ++ ")"

def echoCode (expr : String) (escape : Bool) : String :=
  if escape then s!"__write(__escape({expr}))" else s!"__write(__tostring({expr}))"

/-- Directives and echoes become script code; in a style sheet an unknown directive is text. -/
def expand (directives : Directives) : Pass := fun _ => .onLeave fun scopes n =>
  match n with
  | .directive name values body o =>
    if !directives.knows name && scopes.any (Scope.isTagOf ["style"]) then
      return .keep (.raw (verbatim name body) o)
    else
      match directives.expand ⟨name, values, body, o⟩ with
      | .error failure => throw failure
      | .ok code => return .keep (.host code o)
  | .echo expr escape o =>
    let expr := onChars trim expr
    if expr.isEmpty then throw (.parse .emptyEcho o.path o.line none)
    else return .keep (.host (echoCode expr escape) o)
  | n => return .keep n

/-- Where white space is kept: in attribute values and in elements of the given names. -/
def preserveIn (names : List String) (scopes : List Scope) : Bool :=
  scopes.any fun scope => scope.isAttr || scope.isTagOf names

def trimFirst : List Node → List Node
  | .raw text o :: rest => .raw (onChars trimStart text) o :: rest
  | nodes => nodes

def trimLast : List Node → List Node
  | [] => []
  | [.raw text o] => [.raw (onChars trimEnd text) o]
  | node :: rest => node :: trimLast rest

def isEmptyText : Node → Bool
  | .raw text _ => text.isEmpty
  | _ => false

/-- The nodes of a page without white space at its edges and without empty text. -/
def trimEdges (nodes : List Node) : List Node :=
  (trimLast (trimFirst nodes)).filter (!isEmptyText ·)

/-- Runs of line breaks become one, except where `preserve` holds of the enclosing scopes, and the
edges of the page are trimmed. -/
def tidy (preserve : List Scope → Bool) : Pass := fun _ => .onLeave fun scopes n =>
  match n with
  | .raw text o =>
    return .keep (.raw (if preserve scopes then text else onChars collapseBreaks text) o)
  | .template children o =>
    return .keep (.template (if scopes.isEmpty then trimEdges children else children) o)
  | n => return .keep n

def finalize (directives : Directives) (preserve : List Scope → Bool) : List Pass :=
  [collect, expand directives, tidy preserve]

end Pass

end Lamina
