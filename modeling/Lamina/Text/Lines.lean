/-! Lines of a text. A line ends at a line feed; a carriage return right before the feed belongs
to the ending. -/

namespace Lamina.Text

def feeds (s : List Char) : Nat := s.countP (· == '\n')

def dropReturn (line : List Char) : List Char :=
  match line.reverse with
  | '\r' :: r => r.reverse
  | _ => line

def feedPieces : List Char → List (List Char × Bool)
  | [] => []
  | c :: s =>
    if c = '\n' then ([], true) :: feedPieces s
    else match feedPieces s with
      | [] => [([c], false)]
      | (line, closed) :: rest => (c :: line, closed) :: rest

def lines (s : List Char) : List (List Char) :=
  (feedPieces s).map fun (line, closed) => if closed then dropReturn line else line

def linesOf (s : String) : List String := (lines s.toList).map String.ofList

def isBreak (c : Char) : Bool := c == '\r' || c == '\n'

/-- Each maximal run of line breaks becomes one line feed; `inRun` says that the character
before the text was a break. -/
def collapseBreaksFrom (inRun : Bool) : List Char → List Char
  | [] => []
  | c :: s =>
    if isBreak c then
      if inRun then collapseBreaksFrom true s else '\n' :: collapseBreaksFrom true s
    else c :: collapseBreaksFrom false s

def collapseBreaks (s : List Char) : List Char := collapseBreaksFrom false s

end Lamina.Text
