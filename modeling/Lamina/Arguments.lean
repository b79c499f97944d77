import Lamina.Token.Scan

/-! The positional values of a directive. Commas separate them outside string literals and
brackets; brackets of the three kinds nest properly and literals are terminated. -/

namespace Lamina.Arguments

open Lamina.Text
open Scan (isQuote)

/-- What follows a literal's closing quote; a backslash protects the next character. -/
def afterLiteral (quote : Char) : List Char → Option (List Char)
  | [] => none
  | '\\' :: _ :: s => afterLiteral quote s
  | c :: s => if c = quote then some s else afterLiteral quote s

theorem afterLiteral_length {quote : Char} {s r : List Char} (h : afterLiteral quote s = some r) :
    r.length < s.length := by
  fun_induction afterLiteral quote s with
  | case1 => simp at h
  | case2 c s ih => have := ih h; simp; omega
  | case3 s => cases h; simp
  | case4 c s _ _ ih => have := ih h; simp; omega

def closer? : Char → Option Char
  | '(' => some ')'
  | '[' => some ']'
  | '{' => some '}'
  | _ => none

def isBracket (c : Char) : Bool :=
  c == '(' || c == ')' || c == '[' || c == ']' || c == '{' || c == '}'

def isPlain (c : Char) : Bool := !isQuote c && !isBracket c

mutual

/-- What follows the literal, the bracketed group or the plain character that `s` starts with. -/
def afterItem (plain : Char → Bool) (s : List Char) :
    Option { r : List Char // r.length < s.length } :=
  match s with
  | [] => none
  | c :: s =>
    if isQuote c then
      match h : afterLiteral c s with
      | some r => some ⟨r, by have := afterLiteral_length h; simp; omega⟩
      | none => none
    else
      match closer? c with
      | some close =>
        match afterItems isPlain s with
        | ⟨d :: r, h⟩ =>
          if d = close then some ⟨r, by simp at h ⊢; omega⟩ else none
        | _ => none
      | none => if plain c then some ⟨s, by simp⟩ else none
termination_by (s.length, 0)

def afterItems (plain : Char → Bool) (s : List Char) : { r : List Char // r.length ≤ s.length } :=
  match afterItem plain s with
  | some ⟨r, h⟩ =>
    match afterItems plain r with
    | ⟨r', h'⟩ => ⟨r', by omega⟩
  | none => ⟨s, Nat.le_refl _⟩
termination_by (s.length, 1)

end

def segments (s : List Char) : Option (List (List Char)) :=
  match afterItems (fun c => isPlain c && c != ',') s with
  | ⟨[], _⟩ => some [s]
  | ⟨c :: r, h⟩ =>
    if c = ',' then
      (segments r).map (s.take (s.length - (r.length + 1)) :: ·)
    else none
termination_by s.length
decreasing_by simp at h; omega

/-- Why a body has no values. -/
inductive Fault
  | malformed
  deriving DecidableEq, Repr

def Fault.text : Fault → String
  | malformed => "expected EOI"

def split (body : String) : Except Fault (List String) :=
  if allBlank body.toList then .ok []
  else
    match segments body.toList with
    | none => .error .malformed
    | some values => .ok (values.map fun value => String.ofList (trim value))

end Lamina.Arguments
