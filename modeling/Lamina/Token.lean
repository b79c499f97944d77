import Lamina.Origin
import Lamina.Text.Lines

/-! Tokens, and the segments of a source they come from. The segments of a source are its
consecutive stretches; a run of literal segments makes one raw token, a gap makes none. -/

namespace Lamina

inductive TokenKind
  | raw
  | tagOpen (name : String)
  | attrName (name : String)
  | valueStart (quote : Char)
  | valueEnd
  | unquoted (value : String)
  | tagEnd
  | selfClose
  | tagClose (name : String)
  | echo (expr : String) (escape : Bool)
  | directive (name : String) (body : Option String)
  | slot (name : String) (content : Option String)
  | host (code : String)
  deriving DecidableEq, Repr

/-- A token and the place where it starts; `offset` counts bytes. -/
structure Token where
  kind : TokenKind
  text : String
  offset : Nat
  line : Nat
  grammar : Grammar
  deriving DecidableEq, Repr

/-- A place in a source; `offset` and `column` count bytes, `line` and `column` from one. -/
structure Position where
  offset : Nat
  line : Nat
  column : Nat
  deriving DecidableEq, Repr

namespace Position

def start : Position := ⟨0, 1, 1⟩

def next (p : Position) (c : Char) : Position :=
  if c = '\n' then ⟨p.offset + c.utf8Size, p.line + 1, 1⟩
  else ⟨p.offset + c.utf8Size, p.line, p.column + c.utf8Size⟩

def advance (p : Position) (s : List Char) : Position := s.foldl next p

end Position

/-- A stretch of a source: one token, literal text with its meaning, or a gap. -/
inductive Segment
  | token (kind : TokenKind) (grammar : Grammar) (lexeme : List Char)
  | literal (lexeme text : List Char)
  | gap (lexeme : List Char)
  deriving DecidableEq, Repr

namespace Segment

def lexeme : Segment → List Char
  | token _ _ lexeme => lexeme
  | literal lexeme _ => lexeme
  | gap lexeme => lexeme

def verbatim (text : List Char) : Segment := literal text text

def source (segments : List Segment) : List Char := segments.flatMap lexeme

end Segment

namespace Token

def ofPending : Option (Position × List Char) → List Token
  | none => []
  | some (start, text) => [⟨.raw, String.ofList text, start.offset, start.line, .html⟩]

def ofSegments (here : Position) (pending : Option (Position × List Char)) :
    List Segment → List Token
  | [] => ofPending pending
  | .literal lexeme text :: rest =>
    let (start, sofar) := pending.getD (here, [])
    ofSegments (here.advance lexeme) (some (start, sofar ++ text)) rest
  | .token kind grammar lexeme :: rest =>
    ofPending pending ++ ⟨kind, String.ofList lexeme, here.offset, here.line, grammar⟩ ::
      ofSegments (here.advance lexeme) none rest
  | .gap lexeme :: rest => ofPending pending ++ ofSegments (here.advance lexeme) none rest

end Token

end Lamina
