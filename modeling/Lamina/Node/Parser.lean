import Lamina.Arguments
import Lamina.Node
import Lamina.Token.Lexer

/-! Trees from tokens. The parser takes one token after the other and keeps the open elements;
closing tags match the innermost open element, ignoring case. -/

namespace Lamina

open Lamina.Text

def voidElements : List String :=
  ["area", "base", "br", "col", "embed", "hr", "img", "input", "link", "meta", "param", "source",
    "track", "wbr"]

def isVoidElement (name : String) : Bool := voidElements.any (sameName · name)

namespace Parser

abbrev Fault := ParseFault × Nat

/-- An element that is not closed yet; its children stand in reverse. -/
structure Open where
  name : String
  attrs : List (Attr Node)
  children : List Node
  origin : Origin

/-- An opening tag that is not ended yet; its attributes stand in reverse. -/
structure Opening where
  name : String
  start : Token
  attrs : List (Attr Node)

/-- What the next token belongs to. -/
inductive Place
  | content
  | tag (opening : Opening)
  | named (opening : Opening) (name : String) (token : Token)
  | value (opening : Opening) (name : String) (token : Token) (quote : Char) (nodes : List Node)

/-- The open elements, the innermost first, and the finished nodes at the root in reverse. -/
structure State where
  stack : List Open
  root : List Node
  place : Place

def State.start : State := ⟨[], [], .content⟩

def originOf (file : String) (token : Token) (label : String) : Origin :=
  .of file token.line token.grammar label

/-- The node of a token that is content; nothing for the tokens of markup. -/
def contentNode? (file : String) (token : Token) : Except Fault (Option Node) :=
  match token.kind with
  | .raw => .ok (some (.raw token.text (originOf file token "raw")))
  | .echo expr escape =>
    .ok (some (.echo expr escape
      (originOf file token (if escape then "\x7b\x7b" else "\x7b!!"))))
  | .directive name body =>
    match body.elim (.ok []) Arguments.split with
    | .error fault => .error (.malformedArguments name fault.text, token.line)
    | .ok values =>
      .ok (some (.directive name values body (originOf file token ("@" ++ name))))
  | .slot name content =>
    let origin := originOf file token ("$\x7b" ++ name ++ "\x7d")
    .ok (some (.block name (content.elim [] fun text => [.raw text origin]) origin))
  | .host code => .ok (some (.host code (originOf file token "<?lua")))
  | _ => .ok none

def State.append (s : State) (node : Node) : State :=
  match s.stack with
  | [] => { s with root := node :: s.root }
  | element :: outer =>
    { s with stack := { element with children := node :: element.children } :: outer }

def contentStep (file : String) (s : State) (token : Token) : Except Fault State :=
  match token.kind with
  | .tagOpen name => .ok { s with place := .tag ⟨name, token, []⟩ }
  | .tagClose name =>
    match s.stack with
    | element :: outer =>
      if sameName element.name name then
        .ok (State.append { s with stack := outer }
          (.tag element.name element.attrs element.children.reverse .pair element.origin))
      else if isVoidElement name then .ok s
      else .error (.unexpectedClosing name (some element.name), token.line)
    | [] =>
      if isVoidElement name then .ok s else .error (.unexpectedClosing name none, token.line)
  | _ =>
    match contentNode? file token with
    | .error fault => .error fault
    | .ok (some node) => .ok (s.append node)
    | .ok none => .error (.unexpected token.text, token.line)

def State.enter (file : String) (s : State) (opening : Opening) (closing : Closing) : State :=
  let origin := originOf file opening.start opening.name
  let s := { s with place := .content }
  match closing with
  | .pair => { s with stack := ⟨opening.name, opening.attrs.reverse, [], origin⟩ :: s.stack }
  | _ => s.append (.tag opening.name opening.attrs.reverse [] closing origin)

def isAttrConstruct : TokenKind → Bool
  | .echo .. | .directive .. | .host .. => true
  | _ => false

def tagStep (file : String) (s : State) (opening : Opening) (token : Token) :
    Except Fault State :=
  match token.kind with
  | .attrName name => .ok { s with place := .named opening name token }
  | .tagEnd => .ok (s.enter file opening (if isVoidElement opening.name then .void else .pair))
  | .selfClose => .ok (s.enter file opening .selfClosing)
  | kind =>
    let unexpected := .error (.unexpectedInTag token.text opening.name, token.line)
    if isAttrConstruct kind then
      match contentNode? file token with
      | .error fault => .error fault
      | .ok none => unexpected
      | .ok (some node) =>
        let attr : Attr Node := ⟨"", .dynamic [node], originOf file token "attr"⟩
        .ok { s with place := .tag { opening with attrs := attr :: opening.attrs } }
    else unexpected

def Opening.add (file : String) (opening : Opening) (name : String) (token : Token)
    (value : AttrValue Node) : Opening :=
  { opening with attrs := ⟨name, value, originOf file token "attr"⟩ :: opening.attrs }

def step (file : String) (s : State) (token : Token) : Except Fault State :=
  match s.place with
  | .content => contentStep file s token
  | .tag opening => tagStep file s opening token
  | .named opening name named =>
    match token.kind with
    | .unquoted value =>
      .ok { s with place := .tag (opening.add file name named (.unquoted value)) }
    | .valueStart quote => .ok { s with place := .value opening name named quote [] }
    | _ => tagStep file s (opening.add file name named .bare) token
  | .value opening name named quote nodes =>
    match token.kind with
    | .valueEnd =>
      .ok { s with place := .tag (opening.add file name named (.quoted quote nodes.reverse)) }
    | _ =>
      match contentNode? file token with
      | .error fault => .error fault
      | .ok (some node) => .ok { s with place := .value opening name named quote (node :: nodes) }
      | .ok none => .error (.unexpectedInValue token.text, token.line)

def finish (s : State) : Except Fault (List Node) :=
  match s.place with
  | .tag opening | .named opening _ _ =>
    .error (.unterminatedTag opening.name, opening.start.line)
  | .value _ _ named _ _ => .error (.unterminatedValue, named.line)
  | .content =>
    match s.stack with
    | element :: _ => .error (.unclosedTag element.name, element.origin.line)
    | [] => .ok s.root.reverse

def run (file : String) (s : State) : List Token → Except Fault (List Node)
  | [] => finish s
  | token :: rest =>
    match step file s token with
    | .error fault => .error fault
    | .ok s => run file s rest

end Parser

namespace Node

def rootOf (file : String) (children : List Node) : Node :=
  .template children (.of file 1 .html "template")

def ofTokens (file source : String) (tokens : List Token) : Except Failure Node :=
  match Parser.run file .start tokens with
  | .error (fault, line) => .error (.parse fault file line (some (.ofSource source line 1)))
  | .ok nodes => .ok (rootOf file nodes)

def parse (source file : String) : Except Failure Node :=
  match Token.lex .html source file with
  | .error failure => .error failure
  | .ok tokens => ofTokens file source tokens

theorem exists_of_parse {source file : String} {root : Node} (h : parse source file = .ok root) :
    ∃ tokens nodes, Token.lex .html source file = .ok tokens ∧
      Parser.run file .start tokens = .ok nodes ∧ root = rootOf file nodes := by
  rw [parse] at h
  split at h
  · cases h
  · next tokens hlex =>
    rw [ofTokens] at h
    split at h
    · cases h
    · next nodes hrun => exact ⟨tokens, nodes, hlex, hrun, (Except.ok.inj h).symm⟩

end Node

end Lamina
