import Lamina.Context
import Lamina.View

/-! Processors prepare a template's source before it is read. The context processor puts the
values of the context in place of placeholders, which may carry a fallback. -/

namespace Lamina

open Lamina.Text

/-- A change to a template's source, which may fail. -/
structure Processor where
  run : View → Context → String → Except Failure String

namespace Placeholder

def isStart (c : Char) : Bool := c.isAlpha || c == '_'

def isInner (c : Char) : Bool := c.isAlphanum || c == '_' || c == '.' || c == '-'

/-- A stretch of a source: one character, or a placeholder with its fallback. -/
inductive Piece
  | char (c : Char)
  | value (name : List Char) (fallback : Option (List Char))
  deriving DecidableEq, Repr

def Piece.lexeme : Piece → List Char
  | char c => [c]
  | value name none => '@' :: '{' :: name ++ ['}']
  | value name (some text) => '@' :: '{' :: name ++ '|' :: text ++ ['}']

def read? (s : List Char) : Option (Piece × List Char) :=
  match ['@', '{'].isPrefixOf? s with
  | none => none
  | some [] => none
  | some (c :: inner) =>
    if !isStart c then none
    else
      let name := c :: inner.takeWhile isInner
      match inner.dropWhile isInner with
      | '}' :: rest => some (.value name none, rest)
      | '|' :: after =>
        match cut ['}'] after with
        | some (text, rest) => some (.value name (some text), rest)
        | none => none
      | _ => none

theorem read?_eq_some {s : List Char} {p : Piece} {rest : List Char}
    (h : read? s = some (p, rest)) : s = p.lexeme ++ rest := by
  unfold read? at h
  split at h
  · cases h
  · cases h
  · next c inner hs =>
    have hs := isPrefixOf?_eq_some.1 hs
    split at h
    · cases h
    · simp only at h
      have hi := List.takeWhile_append_dropWhile (p := isInner) (l := inner)
      split at h
      · next r hr =>
        cases h
        rw [hr] at hi
        simpa [Piece.lexeme, hs] using hi.symm
      · next after hr =>
        rw [hr] at hi
        split at h
        · next text r hc =>
          cases h
          rw [cut_eq_some hc] at hi
          simpa [Piece.lexeme, hs] using hi.symm
        · cases h
      · cases h

def pieces (s : List Char) : List Piece :=
  match s with
  | [] => []
  | c :: rest =>
    match h : read? (c :: rest) with
    | some (p, after) =>
      have : after.length < (c :: rest).length := by
        have := congrArg List.length (read?_eq_some h)
        rw [List.length_append] at this
        have : 0 < p.lexeme.length := by
          cases p with
          | char => simp [Piece.lexeme]
          | value name fallback => cases fallback <;> simp [Piece.lexeme]
        omega
      p :: pieces after
    | none => .char c :: pieces rest
termination_by s.length
decreasing_by
  · assumption
  · exact Nat.lt_succ_self _

/-- The text of pieces; the first placeholder without a value is reported with the number of line
feeds before it. -/
def fill (context : Context) : List Piece → Except (String × Nat) (List Char)
  | [] => .ok []
  | .char c :: rest =>
    match fill context rest with
    | .ok text => .ok (c :: text)
    | .error (name, n) => .error (name, feeds [c] + n)
  | .value name fallback :: rest =>
    match ((context.get? (String.ofList name)).map String.toList).or fallback with
    | none => .error (String.ofList name, 0)
    | some value =>
      match fill context rest with
      | .ok text => .ok (value ++ text)
      | .error (missing, n) => .error (missing, feeds (Piece.value name fallback).lexeme + n)

end Placeholder

namespace Processor

def context : Processor where
  run view context source :=
    match Placeholder.fill context (Placeholder.pieces source.toList) with
    | .ok text => .ok (String.ofList text)
    | .error (name, n) =>
      .error (.parse (.undefinedValue name) view.filename (n + 1)
        (some (.ofSource source (n + 1) 1)))

def replacing (needle substitute : String) : Processor where
  run _ _ source := .ok (replaceAll needle substitute source)

def named? (name : String) : Option Processor := if name = "context" then some context else none

end Processor

end Lamina
