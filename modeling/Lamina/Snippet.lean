import Lamina.Text.Lines

/-! Excerpts of a source around a failure, with line numbers and a caret. -/

namespace Lamina

/-- A source and a place in it; the excerpt has two lines on either side. -/
structure Snippet where
  lines : List String
  line : Nat
  column : Nat
  deriving DecidableEq, Repr

namespace Snippet

def ofSource (source : String) (line column : Nat) : Snippet :=
  ⟨Text.linesOf source, line, column⟩

def first (s : Snippet) : Nat := max (s.line - 2) 1

def last (s : Snippet) : Nat := min (s.line + 2) s.lines.length

def padLeft (width : Nat) (text : String) : String :=
  String.ofList (List.replicate (width - text.length) ' ') ++ text

def caret (column : Nat) : String :=
  "     | " ++ String.ofList (List.replicate (column - 1) ' ') ++ "^\n"

def row (s : Snippet) (number : Nat) (content : String) : String :=
  let shown := padLeft 4 (toString number) ++ " | " ++ content ++ "\n"
  if number = s.line then shown ++ caret s.column else shown

def text (s : Snippet) : String :=
  let numbered := (List.range' 1 s.lines.length).zip s.lines
  let shown := numbered.filter fun (number, _) => s.first ≤ number && number ≤ s.last
  String.join (shown.map fun (number, content) => s.row number content)

end Snippet

end Lamina
