/-! Patterns for searching texts: sequences of character classes with repetitions, captures and
anchors. A pattern is read once and then matched by going through its parts. -/

namespace Lamina.Script.Pattern

inductive SetItem
  | char (c : Char)
  | range (low high : Char)
  | kind (c : Char)

/-- What one character of the text may be. -/
inductive Single
  | any
  | char (c : Char)
  | kind (c : Char)
  | set (negated : Bool) (items : List SetItem)

inductive Repetition
  | once
  | many
  | some
  | few
  | optional

inductive Part
  | single (s : Single) (r : Repetition)
  | opening
  | closing
  | position
  | back (n : Nat)
  | balanced (opener closer : Char)
  | frontier (s : Single)
  | finish

def isPunct (c : Char) : Bool :=
  (33 ≤ c.toNat && c.toNat ≤ 47) || (58 ≤ c.toNat && c.toNat ≤ 64) ||
    (91 ≤ c.toNat && c.toNat ≤ 96) || (123 ≤ c.toNat && c.toNat ≤ 126)

def isSpace (c : Char) : Bool := c == ' ' || (9 ≤ c.toNat && c.toNat ≤ 13)

/-- Whether a character is of the kind a letter names; capital letters name the opposite, and
other characters themselves. -/
def isKind (kind c : Char) : Bool :=
  let found :=
    match kind.toLower with
    | 'a' => some c.isAlpha
    | 'd' => some c.isDigit
    | 'l' => some c.isLower
    | 'u' => some c.isUpper
    | 's' => some (isSpace c)
    | 'w' => some c.isAlphanum
    | 'p' => some (isPunct c)
    | 'c' => some (c.toNat < 32 || c.toNat == 127)
    | 'g' => some (32 < c.toNat && c.toNat < 127)
    | 'x' => some (c.isDigit || ('a' ≤ c && c ≤ 'f') || ('A' ≤ c && c ≤ 'F'))
    | _ => none
  match found with
  | some b => if kind.isUpper then !b else b
  | none => kind == c

def SetItem.accepts (c : Char) : SetItem → Bool
  | char d => c == d
  | range low high => low ≤ c && c ≤ high
  | kind k => isKind k c

def Single.accepts (c : Char) : Single → Bool
  | any => true
  | char d => c == d
  | kind k => isKind k c
  | set negated items => items.any (SetItem.accepts c) != negated

def setItems : Nat → Bool → List Char → Except String (List SetItem × List Char)
  | 0, _, _ => .error "malformed pattern (missing ']')"
  | fuel + 1, first, s =>
    match s with
    | [] => .error "malformed pattern (missing ']')"
    | ']' :: rest =>
      if first then (setItems fuel false rest).map fun (items, rest) => (.char ']' :: items, rest)
      else .ok ([], rest)
    | '%' :: c :: rest =>
      (setItems fuel false rest).map fun (items, rest) => (.kind c :: items, rest)
    | low :: '-' :: high :: rest =>
      if high = ']' then
        (setItems fuel false ('-' :: high :: rest)).map fun (items, rest) =>
          (.char low :: items, rest)
      else (setItems fuel false rest).map fun (items, rest) => (.range low high :: items, rest)
    | c :: rest => (setItems fuel false rest).map fun (items, rest) => (.char c :: items, rest)

def single (s : List Char) : Except String (Single × List Char) :=
  match s with
  | [] => .error "malformed pattern (ends with '%')"
  | '.' :: rest => .ok (.any, rest)
  | '%' :: c :: rest => .ok (.kind c, rest)
  | ['%'] => .error "malformed pattern (ends with '%')"
  | '[' :: '^' :: rest =>
    (setItems (rest.length + 1) true rest).map fun (items, rest) => (.set true items, rest)
  | '[' :: rest =>
    (setItems (rest.length + 1) true rest).map fun (items, rest) => (.set false items, rest)
  | c :: rest => .ok (.char c, rest)

def parts : Nat → List Char → Except String (List Part)
  | 0, _ => .ok []
  | fuel + 1, s =>
    let more (part : Part) (rest : List Char) : Except String (List Part) :=
      (parts fuel rest).map (part :: ·)
    match s with
    | [] => .ok []
    | '(' :: ')' :: rest => more .position rest
    | '(' :: rest => more .opening rest
    | ')' :: rest => more .closing rest
    | ['$'] => .ok [.finish]
    | '%' :: 'b' :: a :: b :: rest => more (.balanced a b) rest
    | '%' :: 'f' :: rest => do
      let (s, rest) ← single rest
      more (.frontier s) rest
    | s => do
      let backward? : Option (Nat × List Char) :=
        match s with
        | '%' :: c :: rest => if c.isDigit then some (c.toNat - '0'.toNat, rest) else none
        | _ => none
      match backward? with
      | some (n, rest) => more (.back n) rest
      | none =>
        let (s, rest) ← single s
        match rest with
        | '*' :: rest => more (.single s .many) rest
        | '+' :: rest => more (.single s .some) rest
        | '-' :: rest => more (.single s .few) rest
        | '?' :: rest => more (.single s .optional) rest
        | rest => more (.single s .once) rest

/-- A capture: where it starts, the text from there on, and its length once it is closed. A capture
of a position has none. -/
structure Capture where
  start : Nat
  text : List Char
  length : Option Nat
  isPosition : Bool := false

/-- A place in a text: how many characters are in front of it, the last of them, and the rest. -/
structure Place where
  offset : Nat
  before : Option Char
  rest : List Char

def Place.ofText (s : List Char) : Place := ⟨0, none, s⟩

def Place.skip : Nat → Place → Place
  | 0, p => p
  | n + 1, p =>
    match p.rest with
    | [] => p
    | c :: rest => Place.skip n ⟨p.offset + 1, some c, rest⟩

def span (s : Single) (text : List Char) : Nat := (text.takeWhile s.accepts).length

def balance (opener closer : Char) : Nat → Nat → List Char → Option Nat
  | _, _, [] => none
  | depth, n, c :: rest =>
    if c = closer then
      if depth = 1 then some (n + 1) else balance opener closer (depth - 1) (n + 1) rest
    else if c = opener then balance opener closer (depth + 1) (n + 1) rest
    else balance opener closer depth (n + 1) rest

def close (offset : Nat) : List Capture → List Capture
  | [] => []
  | c :: rest =>
    if c.length.isNone && !c.isPosition then { c with length := some (offset - c.start) } :: rest
    else c :: close offset rest

/-- Matches parts from a place on. The result is the place behind the match and the captures, the
latest first. -/
def run : List Part → Place → List Capture → Option (Place × List Capture)
  | [], p, caps => some (p, caps)
  | part :: rest, p, caps =>
    let go (n : Nat) : Option (Place × List Capture) := run rest (p.skip n) caps
    match part with
    | .finish => if p.rest.isEmpty then run rest p caps else none
    | .opening => run rest p (⟨p.offset, p.rest, none, false⟩ :: caps)
    | .position => run rest p (⟨p.offset, p.rest, none, true⟩ :: caps)
    | .closing => run rest p (close p.offset caps)
    | .back n =>
      match caps.reverse[n - 1]? with
      | some ⟨_, text, some length, _⟩ =>
        if p.rest.take length = text.take length then go length else none
      | _ => none
    | .balanced a b =>
      match p.rest with
      | c :: inner => if c = a then (balance a b 1 1 inner).bind go else none
      | [] => none
    | .frontier set =>
      if !set.accepts (p.before.getD '\x00') && set.accepts (p.rest.head?.getD '\x00') then
        run rest p caps
      else none
    | .single c .once =>
      match p.rest with
      | d :: _ => if c.accepts d then go 1 else none
      | [] => none
    | .single c .optional => (List.range (min (span c p.rest) 1 + 1)).reverse.findSome? go
    | .single c .many => (List.range (span c p.rest + 1)).reverse.findSome? go
    | .single c .some => ((List.range (span c p.rest + 1)).drop 1).reverse.findSome? go
    | .single c .few => (List.range (span c p.rest + 1)).findSome? go

/-- A pattern that is ready to be matched. -/
structure Compiled where
  anchored : Bool
  parts : List Part

def compile (pattern : List Char) : Except String Compiled :=
  match pattern with
  | '^' :: s => (Pattern.parts (s.length + 1) s).map (⟨true, ·⟩)
  | s => (Pattern.parts (s.length + 1) s).map (⟨false, ·⟩)

/-- A match: where it starts, the text from there on, its length, its captures in order, and the
place behind it. -/
structure Found where
  start : Place
  captures : List Capture
  finish : Place

def Found.length (f : Found) : Nat := f.finish.offset - f.start.offset

def Found.whole (f : Found) : List Char := f.start.rest.take f.length

def Compiled.here (p : Compiled) (place : Place) : Option Found :=
  (run p.parts place []).map fun (finish, caps) => ⟨place, caps.reverse, finish⟩

def search (p : Compiled) : Nat → Place → Option Found
  | 0, _ => none
  | fuel + 1, place =>
    match p.here place with
    | some f => some f
    | none => if p.anchored || place.rest.isEmpty then none else search p fuel (place.skip 1)

end Lamina.Script.Pattern
