import Lamina.Json.Draft
import Lamina.Text.Search

/-! Reading JSON text: the characters make tokens, and a stack of open containers turns the
tokens into a draft of the value. -/

namespace Lamina.Json

inductive Lexeme
  | mark (c : Char)
  | value (d : Draft)
  deriving Repr

def isSpace (c : Char) : Bool := c == ' ' || c == '\t' || c == '\n' || c == '\r'

def isMark (c : Char) : Bool :=
  c == '{' || c == '}' || c == '[' || c == ']' || c == ':' || c == ','

def digit (c : Char) : Nat := c.toNat - '0'.toNat

def hexValue? (c : Char) : Option Nat :=
  if c.isDigit then some (digit c)
  else if 'a' ≤ c && c ≤ 'f' then some (c.toNat - 'a'.toNat + 10)
  else if 'A' ≤ c && c ≤ 'F' then some (c.toNat - 'A'.toNat + 10)
  else none

def escape? : Char → Option Char
  | '"' => some '"'
  | '\\' => some '\\'
  | '/' => some '/'
  | 'b' => some '\x08'
  | 'f' => some '\x0c'
  | 'n' => some '\n'
  | 'r' => some '\r'
  | 't' => some '\t'
  | _ => none

def hex4? (a b c d : Char) : Option Nat := do
  let a ← hexValue? a
  let b ← hexValue? b
  let c ← hexValue? c
  let d ← hexValue? d
  return ((a * 16 + b) * 16 + c) * 16 + d

/-- The code points and 16-bit units of a string literal up to its closing quote, and the rest. -/
def literal : List Char → Option (List (Char ⊕ Nat) × List Char)
  | [] => none
  | '"' :: s => some ([], s)
  | '\\' :: 'u' :: a :: b :: c :: d :: s => do
    let unit ← hex4? a b c d
    let (units, rest) ← literal s
    return (.inr unit :: units, rest)
  | '\\' :: c :: s => do
    let c ← escape? c
    let (units, rest) ← literal s
    return (.inl c :: units, rest)
  | c :: s =>
    if c.toNat < 0x20 then none
    else do
      let (units, rest) ← literal s
      return (.inl c :: units, rest)

def joinUnits : List (Char ⊕ Nat) → Option (List Char)
  | [] => some []
  | .inl c :: rest => (joinUnits rest).map (c :: ·)
  | .inr high :: .inr low :: rest =>
    if 0xD800 ≤ high && high ≤ 0xDBFF then
      if 0xDC00 ≤ low && low ≤ 0xDFFF then
        (joinUnits rest).map
          (Char.ofNat (0x10000 + (high - 0xD800) * 0x400 + (low - 0xDC00)) :: ·)
      else none
    else if 0xDC00 ≤ high && high ≤ 0xDFFF then none
    else (joinUnits (.inr low :: rest)).map (Char.ofNat high :: ·)
  | .inr unit :: rest =>
    if 0xD800 ≤ unit && unit ≤ 0xDFFF then none
    else (joinUnits rest).map (Char.ofNat unit :: ·)

/-- The number that digits stand for, and how many of them fit into 64 bits. -/
def significand (sofar : Nat) : List Char → Nat × List Char
  | [] => (sofar, [])
  | c :: s =>
    if sofar * 10 + digit c < UInt64.size then significand (sofar * 10 + digit c) s
    else (sofar, c :: s)

/-- `m * 10 ^ e` as a double: the 64-bit number is rounded, then scaled by a rounded power of ten;
nothing if that is too large. Small values are scaled down in steps. -/
def scaledFloat (m : Nat) (e : Int) : Option Float :=
  let power (n : Nat) : Float := Float.ofScientific 1 false n
  let rec shrink (x : Float) : Nat → Int → Float
    | 0, _ => 0.0
    | fuel + 1, e =>
      if x == 0.0 then x
      else if -308 ≤ e then x / power (-e).toNat
      else shrink (x / power 308) fuel (e + 308)
  let x := m.toUInt64.toFloat
  if 0 ≤ e then
    if m = 0 then some 0.0
    else if 308 < e then none
    else
      let y := x * power e.toNat
      if y.isInf then none else some y
  else some (shrink x 10 e)

/-- The exponent part of a number, after its mark; the sign is read first. -/
def exponent? (s : List Char) : Option Int :=
  let (negative, digits) :=
    match s with
    | '+' :: s => (false, s)
    | '-' :: s => (true, s)
    | s => (false, s)
  if digits.isEmpty || !digits.all Char.isDigit then none
  else
    let n : Int := digits.foldl (fun n c => n * 10 + digit c) 0
    some (if negative then -n else n)

/-- A number without its sign: a whole one of 64 bits, or one that is floating point unless it is
too large; `none` if it is malformed. -/
def magnitude? (s : List Char) : Option (Nat ⊕ Option Float) :=
  let whole := s.takeWhile Char.isDigit
  let rest := s.dropWhile Char.isDigit
  if whole.isEmpty || (whole.length > 1 && whole.head? == some '0') then none
  else
    let (m, dropped) := significand 0 whole
    match rest with
    | [] => some (if dropped.isEmpty then .inl m else .inr (scaledFloat m dropped.length))
    | '.' :: after =>
      let fraction := after.takeWhile Char.isDigit
      if fraction.isEmpty then none
      else
        let (m, unread) := significand m fraction
        let e := (dropped.length : Int) - (fraction.length - unread.length : Nat)
        match after.dropWhile Char.isDigit with
        | [] => some (.inr (scaledFloat m e))
        | c :: part =>
          if c = 'e' || c = 'E' then
            (exponent? part).map fun e' => .inr (scaledFloat m (e + e'))
          else none
    | c :: part =>
      if c = 'e' || c = 'E' then
        (exponent? part).map fun e => .inr (scaledFloat m (dropped.length + e))
      else none

/-- A number, without a value if it is too large; the negative zero and integers below the 64-bit
range are floating point. -/
def number? : List Char → Option (Option Json)
  | '-' :: s =>
    (magnitude? s).map fun
      | .inl n =>
        some (if n = 0 || UInt64.size / 2 < n then .float (-n.toUInt64.toFloat) else .int (-n))
      | .inr x => x.map fun x => .float (-x)
  | s =>
    (magnitude? s).map fun
      | .inl n => some (.int n)
      | .inr x => x.map .float

def word? : List Char → Option Json
  | ['t', 'r', 'u', 'e'] => some (.bool true)
  | ['f', 'a', 'l', 's', 'e'] => some (.bool false)
  | ['n', 'u', 'l', 'l'] => some .null
  | _ => none

def isPlain (c : Char) : Bool := c.isAlphanum || c == '+' || c == '-' || c == '.'

theorem literal_length {s : List Char} {units rest} (h : literal s = some (units, rest)) :
    rest.length < s.length := by
  fun_induction literal s generalizing units rest with
  | case1 => simp at h
  | case2 s => cases h; simp
  | case3 _ _ _ _ s ih | case4 _ s _ ih =>
    simp only [bind, Option.bind_eq_some_iff] at h
    obtain ⟨_, _, ⟨u, r⟩, hr, he⟩ := h
    cases he
    have := ih hr
    simp; omega
  | case5 => simp at h
  | case6 c s _ _ _ _ ih =>
    simp only [bind, Option.bind_eq_some_iff] at h
    obtain ⟨⟨u, r⟩, hr, he⟩ := h
    cases he
    have := ih hr
    simp; omega

def written (s : List Char) (units : List (Char ⊕ Nat)) : Literal :=
  match joinUnits units with
  | none => ⟨none, false⟩
  | some text => ⟨some (String.ofList text), (text ++ ['"']).isPrefixOf s⟩

def lexemes : List Char → Option (List Lexeme)
  | [] => some []
  | c :: s =>
    if isSpace c then lexemes s
    else if isMark c then (lexemes s).map (.mark c :: ·)
    else if c = '"' then
      match h : literal s with
      | none => none
      | some (units, rest) =>
        have := literal_length h
        (lexemes rest).map (.value (.text (written s units)) :: ·)
    else if isPlain c then
      let plain := c :: s.takeWhile isPlain
      have := (List.dropWhile_sublist (l := s) isPlain).length_le
      match if c.isAlpha then (word? plain).map some else number? plain with
      | none => none
      | some j => (lexemes (s.dropWhile isPlain)).map (.value (.leaf j) :: ·)
    else none
termination_by s => s.length
decreasing_by all_goals simp_wf <;> omega

/-- An open container, its contents in reverse; an object may wait for the value of a name. -/
inductive Frame
  | arr (items : List Draft)
  | obj (members : List (Literal × Draft))
  | member (members : List (Literal × Draft)) (name : Literal)

/-- What the reader looks for next. -/
inductive Expect
  | value
  /-- A value or the end of the array just opened. -/
  | first
  /-- A name or the end of the object just opened. -/
  | firstName
  | name
  | colon
  /-- A comma or the end of the innermost container. -/
  | more

/-- A finished value goes into the innermost open container, or is the whole. -/
def deliver (d : Draft) : List Frame → Option (Draft ⊕ List Frame)
  | [] => some (.inl d)
  | .arr items :: stack => some (.inr (.arr (d :: items) :: stack))
  | .member members name :: stack => some (.inr (.obj ((name, d) :: members) :: stack))
  | .obj _ :: _ => none

def readFrom : Expect → List Frame → List Lexeme → Option Draft
  | _, _, [] => none
  | expect, stack, lexeme :: rest =>
    let finish (d : Draft) (stack : List Frame) : Option Draft :=
      match deliver d stack with
      | some (.inl d) => if rest.isEmpty then some d else none
      | some (.inr stack) => readFrom .more stack rest
      | none => none
    match expect, lexeme, stack with
    | .value, .value d, _ | .first, .value d, _ => finish d stack
    | .first, .mark ']', .arr _ :: outer => finish (.arr []) outer
    | .value, .mark '[', _ | .first, .mark '[', _ => readFrom .first (.arr [] :: stack) rest
    | .value, .mark '{', _ | .first, .mark '{', _ => readFrom .firstName (.obj [] :: stack) rest
    | .firstName, .mark '}', .obj _ :: outer => finish (.obj []) outer
    | .firstName, .value (.text name), .obj members :: outer
    | .name, .value (.text name), .obj members :: outer =>
      readFrom .colon (.member members name :: outer) rest
    | .colon, .mark ':', _ => readFrom .value stack rest
    | .more, .mark ',', .arr _ :: _ => readFrom .value stack rest
    | .more, .mark ',', .obj _ :: _ => readFrom .name stack rest
    | .more, .mark ']', .arr items :: outer => finish (.arr items.reverse) outer
    | .more, .mark '}', .obj members :: outer => finish (.obj members.reverse) outer
    | _, _, _ => none

def draft? (text : String) : Option Draft := (lexemes text.toList).bind (readFrom .value [])

def maxNesting : Nat := 127

def read (text : String) : Option Json := (draft? text).bind (·.value? maxNesting)

def readPart (s : Schema) (text : String) : Option Json :=
  (draft? text).bind (·.select [] maxNesting s)

end Lamina.Json
