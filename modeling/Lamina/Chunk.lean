import Lamina.SourceMap
import Lamina.Text.Lines

/-! Chunks: the script code a template becomes. Output is a sequence of texts to write and code to
run; neighbouring texts are written by one line. -/

namespace Lamina

open Lamina.Text

/-- A compiled template. -/
structure Chunk where
  content : String
  paths : List String
  sourceMap : SourceMap
  deriving DecidableEq, Repr

/-- A piece of output. -/
inductive Output
  | text (text : String) (origin : Origin)
  | code (code : String) (origin : Origin)
  deriving DecidableEq, Repr

namespace Output

def escapeChar (c : Char) : List Char :=
  if c = '\\' then ['\\', '\\']
  else if c = '"' then ['\\', '"']
  else if c = '\n' then ['\\', 'n']
  else if c = '\r' then ['\\', 'r']
  else if c = '\t' then ['\\', 't']
  else if c = '\x00' then ['\\', 'x', '0', '0']
  else [c]

def escape (text : String) : String := String.ofList (text.toList.flatMap escapeChar)

def flush : Option (String × Origin) → List (String × Origin)
  | none => []
  | some (sofar, first) => [("__write(\"" ++ escape sofar ++ "\")", first)]

def codeLines (origin : Origin) (n : Nat) : List String → List (String × Origin)
  | [] => []
  | line :: rest => (line, origin.down n) :: codeLines origin (n + 1) rest

/-- The lines of output; text not written yet has the origin of its first piece. -/
def linesFrom (pending : Option (String × Origin)) : List Output → List (String × Origin)
  | [] => flush pending
  | .text t origin :: rest =>
    if t.isEmpty then linesFrom pending rest
    else
      match pending with
      | none => linesFrom (some (t, origin)) rest
      | some (sofar, first) => linesFrom (some (sofar ++ t, first)) rest
  | .code c origin :: rest =>
    flush pending ++ codeLines origin 0 (linesOf c) ++ linesFrom none rest

def lines (output : List Output) : List (String × Origin) := linesFrom none output

def content (lines : List String) : String :=
  let joined := "\n".intercalate lines
  if joined.isEmpty then "" else joined ++ "\n"

end Output

def Chunk.ofOutput (paths : List String) (output : List Output) : Chunk :=
  let lines := Output.lines output
  ⟨Output.content (lines.map Prod.fst), paths, ⟨paths, .numbered 1 (lines.map Prod.snd)⟩⟩

end Lamina
