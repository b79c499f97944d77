import Lamina.Text.Blank
import Lamina.Text.Search

/-! Scanners for the pieces of constructs. Each returns the characters it takes and the rest of
the text; closing delimiters count only outside string literals and at bracket depth zero. -/

namespace Lamina.Scan

open Lamina.Text

def isTagChar (c : Char) : Bool :=
  c.isAlphanum || c == '-' || c == '_' || c == ':' || c == '.'

def isIdentStart (c : Char) : Bool := c.isAlpha || c == '_'

def isIdentChar (c : Char) : Bool := c.isAlphanum || c == '_'

def isQuote (c : Char) : Bool := c == '"' || c == '\''

def tagName (s : List Char) : List Char × List Char :=
  (s.takeWhile isTagChar, s.dropWhile isTagChar)

def ident? (s : List Char) : Option (List Char × List Char) :=
  match s with
  | [] => none
  | c :: _ =>
    if isIdentStart c then some (s.takeWhile isIdentChar, s.dropWhile isIdentChar) else none

/-- Where a scanner stands with respect to string literals. -/
inductive Quoting
  | outside
  | inside (quote : Char)
  | escaped (quote : Char)
  deriving DecidableEq, Repr

def Quoting.inLiteral (quote c : Char) : Quoting :=
  if c = '\\' then .escaped quote else if c = quote then .outside else .inside quote

/-- The text up to `close` and the text after it; braces outside literals nest. -/
def delimited (close : List Char) : Quoting → Nat → List Char → Option (List Char × List Char)
  | _, _, [] => none
  | .inside q, depth, c :: s =>
    (delimited close (.inLiteral q c) depth s).map fun (a, b) => (c :: a, b)
  | .escaped q, depth, c :: s =>
    (delimited close (.inside q) depth s).map fun (a, b) => (c :: a, b)
  | .outside, depth, c :: s =>
    match if depth = 0 then close.isPrefixOf? (c :: s) else none with
    | some after => some ([], after)
    | none =>
      let quoting := if isQuote c then .inside c else .outside
      let depth := if c = '{' then depth + 1 else if c = '}' then depth - 1 else depth
      (delimited close quoting depth s).map fun (a, b) => (c :: a, b)

/-- The text up to the parenthesis that closes `depth + 1` open ones, and the text after it. -/
def balanced : Quoting → Nat → List Char → Option (List Char × List Char)
  | _, _, [] => none
  | .inside q, depth, c :: s => (balanced (.inLiteral q c) depth s).map fun (a, b) => (c :: a, b)
  | .escaped q, depth, c :: s => (balanced (.inside q) depth s).map fun (a, b) => (c :: a, b)
  | .outside, depth, c :: s =>
    if c = ')' then
      if depth = 0 then some ([], s)
      else (balanced .outside (depth - 1) s).map fun (a, b) => (c :: a, b)
    else
      let quoting := if isQuote c then .inside c else .outside
      let depth := if c = '(' then depth + 1 else depth
      (balanced quoting depth s).map fun (a, b) => (c :: a, b)

/-- The name and the content of a slot, from the text between its braces. -/
def slot? (inner : List Char) : Option (List Char × Option (List Char)) :=
  let (name, content) :=
    match cut ['|'] inner with
    | some (name, content) => (trim name, some content)
    | none => (trim inner, none)
  if !name.isEmpty && name.all isTagChar then some (name, content) else none

theorem tagName_append (s : List Char) : (tagName s).1 ++ (tagName s).2 = s :=
  List.takeWhile_append_dropWhile

theorem ident?_eq_some {s name rest : List Char} (h : ident? s = some (name, rest)) :
    s = name ++ rest ∧ name ≠ [] := by
  cases s with
  | nil => simp [ident?] at h
  | cons c s =>
    simp only [ident?] at h
    split at h
    · next hc =>
      cases h
      refine ⟨List.takeWhile_append_dropWhile.symm, ?_⟩
      have : isIdentChar c = true := by
        simp only [isIdentStart, Bool.or_eq_true] at hc
        simp only [isIdentChar, Char.isAlphanum, Bool.or_eq_true]
        rcases hc with hc | hc <;> simp [hc]
      simp [this]
    · simp at h

theorem delimited_eq_some {close : List Char} {q : Quoting} {depth : Nat} {s a b : List Char}
    (h : delimited close q depth s = some (a, b)) : s = a ++ close ++ b := by
  induction s generalizing q depth a b with
  | nil => cases q <;> simp [delimited] at h
  | cons c s ih =>
    cases q with
    | inside | escaped =>
      obtain ⟨⟨x, y⟩, hx, he⟩ := Option.map_eq_some_iff.1 h
      cases he; simp [ih hx]
    | outside =>
      rw [delimited] at h
      split at h
      · next after hp =>
        cases h
        split at hp
        · simpa using isPrefixOf?_eq_some.1 hp
        · simp at hp
      · obtain ⟨⟨x, y⟩, hx, he⟩ := Option.map_eq_some_iff.1 h
        cases he; simp [ih hx]

theorem balanced_eq_some {q : Quoting} {depth : Nat} {s a b : List Char}
    (h : balanced q depth s = some (a, b)) : s = a ++ ')' :: b := by
  induction s generalizing q depth a b with
  | nil => cases q <;> simp [balanced] at h
  | cons c s ih =>
    cases q with
    | inside | escaped =>
      obtain ⟨⟨x, y⟩, hx, he⟩ := Option.map_eq_some_iff.1 h
      cases he; simp [ih hx]
    | outside =>
      rw [balanced] at h
      split at h
      · next hc =>
        split at h
        · cases h; simp [hc]
        · obtain ⟨⟨x, y⟩, hx, he⟩ := Option.map_eq_some_iff.1 h
          cases he; simp [ih hx]
      · obtain ⟨⟨x, y⟩, hx, he⟩ := Option.map_eq_some_iff.1 h
        cases he; simp [ih hx]

end Lamina.Scan
