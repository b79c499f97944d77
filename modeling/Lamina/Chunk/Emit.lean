import Lamina.Chunk
import Lamina.Failure
import Lamina.Node

/-! The output of a tree. Structure, markup and script code are emitted by three renderers; a node
that none of those in use covers is a failure. -/

namespace Lamina

structure Renderers where
  core : Bool
  html : Bool
  host : Bool
  deriving DecidableEq, Repr

def Renderers.all : Renderers := ⟨true, true, true⟩

namespace Node

def parseFailure (origin : Origin) (fault : ParseFault) : Failure :=
  .parse fault origin.path origin.line none

def noRenderer (n : Node) : Except Failure (List Output) :=
  .error (parseFailure n.origin (.noRenderer n.kind))

mutual

def emit (r : Renderers) : Node → Except Failure (List Output)
  | template children o =>
    if r.core then emitAll r children else noRenderer (template children o)
  | block name children o =>
    if r.core then emitAll r children else noRenderer (block name children o)
  | stack name children o =>
    if r.core then emitAll r children else noRenderer (stack name children o)
  | push name prepend children o =>
    if r.core then .ok [] else noRenderer (push name prepend children o)
  | fragment path attrs children o =>
    if r.core then .error (.merge (.unresolvedImport path) o.path o.line)
    else noRenderer (fragment path attrs children o)
  | directive name values body o =>
    if r.core then .error (.directive (.call name .notExpanded) o.path o.line)
    else noRenderer (directive name values body o)
  | raw text o => if r.html then .ok [.text text o] else noRenderer (raw text o)
  | tag name attrs children closing o =>
    if r.html then do
      let attrs ← emitAttrs r attrs
      match closing with
      | .selfClosing => return .text ("<" ++ name) o :: attrs ++ [.text "/>" o]
      | .void => return .text ("<" ++ name) o :: attrs ++ [.text ">" o]
      | .pair =>
        let inner ← emitAll r children
        return .text ("<" ++ name) o :: attrs ++ .text ">" o :: inner ++
          [.text ("</" ++ name ++ ">") o]
    else noRenderer (tag name attrs children closing o)
  | host code o => if r.host then .ok [.code code o] else noRenderer (host code o)
  | echo expr escape o => noRenderer (echo expr escape o)

def emitAll (r : Renderers) : List Node → Except Failure (List Output)
  | [] => .ok []
  | node :: rest => do
    let first ← emit r node
    let rest ← emitAll r rest
    return first ++ rest

def emitAttrs (r : Renderers) : List (Attr Node) → Except Failure (List Output)
  | [] => .ok []
  | attr :: rest => do
    let first ← emitAttr r attr
    let rest ← emitAttrs r rest
    return first ++ rest

def emitAttr (r : Renderers) : Attr Node → Except Failure (List Output)
  | ⟨name, .bare, o⟩ => .ok [.text (" " ++ name) o]
  | ⟨name, .unquoted text, o⟩ => .ok [.text (" " ++ name ++ "=" ++ text) o]
  | ⟨name, .quoted quote nodes, o⟩ => do
    let inner ← emitAll r nodes
    return .text (" " ++ name ++ "=" ++ String.singleton quote) o :: inner ++
      [.text (String.singleton quote) o]
  | ⟨_, .dynamic nodes, o⟩ => do
    let inner ← emitAll r nodes
    return .text " " o :: inner

end

def compile (r : Renderers) (root : Node) (paths : List String) : Except Failure Chunk :=
  (root.emit r).map (Chunk.ofOutput paths)

end Node

end Lamina
