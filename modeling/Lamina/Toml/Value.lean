import Lamina.Decimal
import Lamina.Json.Reader
import Lamina.Text.Digit

/-! The values and keys of TOML documents. Values are read as JSON; a date or a time becomes an
object with one member. -/

namespace Lamina.Toml

open Lamina.Text Lamina.Json

def isSpace (c : Char) : Bool := c == ' ' || c == '\t'

def dropSpace (s : List Char) : List Char := s.dropWhile isSpace

/-- Characters of comments and literal strings: no control characters but tabs. -/
def isPlainChar (c : Char) : Bool := c == '\t' || (0x20 ≤ c.toNat && c.toNat != 0x7F)

def isBareChar (c : Char) : Bool := c.isAlphanum || c == '-' || c == '_'

def newline? : List Char → Option (List Char)
  | '\n' :: s => some s
  | '\r' :: '\n' :: s => some s
  | _ => none

/-- What follows a comment, if there is one; nothing if it holds a control character. -/
def dropComment : List Char → Option (List Char)
  | '#' :: s =>
    let rest := s.dropWhile isPlainChar
    if rest.isEmpty || (newline? rest).isSome then some rest else none
  | s => some s

def dropLines (s : List Char) : Option (List Char) := go s.length s
where
  go : Nat → List Char → Option (List Char)
    | 0, s => some s
    | fuel + 1, s => do
      let s ← dropComment (dropSpace s)
      match newline? s with
      | some s => go fuel s
      | none => some s

def codePoint? (digits : List Char) : Option Char := do
  let n ← digits.foldlM (fun n c => (hexValue? c).map (n * 16 + ·)) 0
  if n < 0xD800 || (0xDFFF < n && n < 0x110000) then some (Char.ofNat n) else none

def escape? : List Char → Option (Char × List Char)
  | 'b' :: s => some ('\x08', s)
  | 't' :: s => some ('\t', s)
  | 'n' :: s => some ('\n', s)
  | 'f' :: s => some ('\x0c', s)
  | 'r' :: s => some ('\r', s)
  | '"' :: s => some ('"', s)
  | '\\' :: s => some ('\\', s)
  | 'u' :: s => if s.length < 4 then none else (codePoint? (s.take 4)).map (·, s.drop 4)
  | 'U' :: s => if s.length < 8 then none else (codePoint? (s.take 8)).map (·, s.drop 8)
  | _ => none

def basic (fuel : Nat) (s : List Char) : Option (List Char × List Char) :=
  match fuel, s with
  | 0, _ | _, [] => none
  | _, '"' :: s => some ([], s)
  | fuel + 1, '\\' :: s => do
    let (c, s) ← escape? s
    let (text, rest) ← basic fuel s
    return (c :: text, rest)
  | fuel + 1, c :: s =>
    if isPlainChar c then (basic fuel s).map fun (text, rest) => (c :: text, rest) else none

def literal (s : List Char) : Option (List Char × List Char) :=
  match s.dropWhile fun c => isPlainChar c && c != '\'' with
  | '\'' :: rest => some (s.takeWhile fun c => isPlainChar c && c != '\'', rest)
  | _ => none

/-- The end of a multi-line string: three quotes, before which two more may belong to the text. -/
def closing? (quote : Char) (s : List Char) : Option (List Char × List Char) :=
  let quotes := (s.takeWhile (· == quote)).length
  if quotes < 3 then none
  else
    let n := min quotes 5
    some (List.replicate (n - 3) quote, s.drop n)

def dropBreaks : List Char → List Char
  | [] => []
  | '\r' :: '\n' :: s => dropBreaks s
  | c :: s => if isSpace c || c == '\n' then dropBreaks s else c :: s

/-- The rest of a multi-line string; only with `escapes` a backslash is special, and before a line
ending it takes the blanks that follow with it. -/
def multiline (escapes : Bool) (quote : Char) : Nat → List Char → Option (List Char × List Char)
  | 0, _ => none
  | fuel + 1, s =>
    match closing? quote s with
    | some found => some found
    | none =>
      match newline? s with
      | some s => (multiline escapes quote fuel s).map fun (text, rest) => ('\n' :: text, rest)
      | none =>
        match s with
        | [] => none
        | c :: s =>
          if escapes && c = '\\' then
            match newline? (dropSpace s) with
            | some s => multiline escapes quote fuel (dropBreaks s)
            | none => do
              let (c, s) ← escape? s
              let (text, rest) ← multiline escapes quote fuel s
              return (c :: text, rest)
          else if isPlainChar c then
            (multiline escapes quote fuel s).map fun (text, rest) => (c :: text, rest)
          else none

def string? (lines : Bool) (s : List Char) : Option (String × List Char) :=
  let body (escapes : Bool) (quote : Char) (s : List Char) : Option (List Char × List Char) :=
    let s := (newline? s).getD s
    multiline escapes quote (s.length + 1) s
  let found :=
    match s with
    | '"' :: '"' :: '"' :: s => if lines then body true '"' s else none
    | '\'' :: '\'' :: '\'' :: s => if lines then body false '\'' s else none
    | '"' :: s => basic (s.length + 1) s
    | '\'' :: s => literal s
    | _ => none
  found.map fun (text, rest) => (String.ofList text, rest)

def keyPart? (s : List Char) : Option (String × List Char) :=
  match s with
  | [] => none
  | c :: _ =>
    if isBareChar c then
      some (String.ofList (s.takeWhile isBareChar), s.dropWhile isBareChar)
    else string? false s

/-- How deep arrays and inline tables nest, and how many parts a key has, at most. -/
def maxDepth : Nat := 79

def keyWithin? : Nat → List Char → Option (List String × List Char)
  | 0, _ => none
  | room + 1, s => do
    let (part, rest) ← keyPart? (dropSpace s)
    match dropSpace rest with
    | '.' :: rest =>
      let (parts, rest) ← keyWithin? room rest
      return (part :: parts, rest)
    | rest => return ([part], rest)

def key? (s : List Char) : Option (List String × List Char) := keyWithin? maxDepth s

/-- Digits of a base with single underscores between them, without the underscores. -/
def digits? (isDigit : Char → Bool) (s : List Char) : Option (List Char) :=
  let groups := s.splitOn '_'
  if groups.all fun g => !g.isEmpty && g.all isDigit then some groups.flatten else none

def inRange (n : Int) : Option Json :=
  if n.bmod UInt64.size = n then some (.int n) else none

def based? (base : Nat) (isDigit : Char → Bool) (s : List Char) : Option Json := do
  let digits ← digits? isDigit s
  let n ← digits.foldlM (fun n c => (hexValue? c).map (n * base + ·)) 0
  inRange n

def whole? (s : List Char) : Option (List Char) := do
  let digits ← digits? Char.isDigit s
  if digits.length > 1 && digits.head? == some '0' then none else some digits

/-- A number in decimal notation without its sign. A positive one with a fraction or an exponent
must not be too large for a double. -/
def decimalNumber? (negative : Bool) (s : List Char) : Option Json :=
  let value (digits : List Char) : Nat := (decimal? digits).getD 0
  let front := s.takeWhile fun c => c.isDigit || c == '_'
  let rest := s.dropWhile fun c => c.isDigit || c == '_'
  let float? (m : List Char) (places : Nat) (e : Int) : Option Json :=
    let x := Decimal.toFloat ⟨value m, e - places⟩
    if negative then some (.float (-x)) else if x.isInf then none else some (.float x)
  let exponent? (s : List Char) : Option Int :=
    let (sign, s) :=
      match s with
      | '+' :: s => ((1 : Int), s)
      | '-' :: s => (-1, s)
      | s => (1, s)
    (digits? Char.isDigit s).map fun d => sign * (value d : Int)
  match rest with
  | [] => do
    let n : Int := value (← whole? front)
    inRange (if negative then -n else n)
  | c :: after =>
    if c = '.' then do
      let front ← whole? front
      let fraction ← digits? Char.isDigit (after.takeWhile fun c => c.isDigit || c == '_')
      match after.dropWhile fun c => c.isDigit || c == '_' with
      | [] => float? (front ++ fraction) fraction.length 0
      | c :: part =>
        if c = 'e' || c = 'E' then
          (exponent? part).bind fun e => float? (front ++ fraction) fraction.length e
        else none
    else if c = 'e' || c = 'E' then do
      let front ← whole? front
      (exponent? after).bind fun e => float? front 0 e
    else none

def number? : List Char → Option Json
  | '0' :: 'x' :: s => based? 16 (fun c => (hexValue? c).isSome) s
  | '0' :: 'o' :: s => based? 8 (fun c => '0' ≤ c && c ≤ '7') s
  | '0' :: 'b' :: s => based? 2 (fun c => c == '0' || c == '1') s
  | s =>
    let (negative, s) :=
      match s with
      | '+' :: s => (false, s)
      | '-' :: s => (true, s)
      | s => (false, s)
    if s = "inf".toList then some (.float (if negative then -1.0 / 0.0 else 1.0 / 0.0))
    else if s = "nan".toList then some (.float (0.0 / 0.0))
    else decimalNumber? negative s

/-- The number of a field of a date or time, which has `width` digits and lies in a range. -/
def field? (width low high : Nat) (s : List Char) : Option (Nat × List Char) :=
  let front := s.take width
  if front.length < width then none
  else
    match decimal? front with
    | some n => if low ≤ n && n ≤ high then some (n, s.drop width) else none
    | none => none

def daysIn (year month : Nat) : Nat :=
  if month = 2 then
    if year % 4 = 0 && (year % 100 != 0 || year % 400 = 0) then 29 else 28
  else if month = 4 || month = 6 || month = 9 || month = 11 then 30
  else 31

def date? (s : List Char) : Option (List Char × List Char) := do
  let (year, t) ← field? 4 0 9999 s
  let t ← ['-'].isPrefixOf? t
  let (month, t) ← field? 2 1 12 t
  let t ← ['-'].isPrefixOf? t
  let (_, t) ← field? 2 1 (daysIn year month) t
  return (s.take 10, t)

/-- The text of a fraction of a second: at most nine digits count, and zeros at the end do not. -/
def fraction (digits : List Char) : List Char :=
  match (digits.take 9).reverse.dropWhile (· == '0') with
  | [] => []
  | back => '.' :: back.reverse

def time? (s : List Char) : Option (List Char × List Char) := do
  let (_, t) ← field? 2 0 23 s
  let t ← [':'].isPrefixOf? t
  let (_, t) ← field? 2 0 59 t
  let t ← [':'].isPrefixOf? t
  let (_, t) ← field? 2 0 60 t
  match t with
  | '.' :: t =>
    let digits := t.takeWhile Char.isDigit
    if digits.isEmpty then none else some (s.take 8 ++ fraction digits, t.dropWhile Char.isDigit)
  | t => some (s.take 8, t)

/-- The text of a time zone, which may be absent, and the rest; no difference has a plus sign. -/
def offset? (s : List Char) : Option (List Char × List Char) :=
  match s with
  | 'Z' :: t | 'z' :: t => some (['Z'], t)
  | '+' :: t | '-' :: t => do
    let (hours, t) ← field? 2 0 23 t
    let t ← [':'].isPrefixOf? t
    let (minutes, t) ← field? 2 0 59 t
    return (if hours = 0 && minutes = 0 then "+00:00".toList else s.take 6, t)
  | t => some ([], t)

def moment? (s : List Char) : Option (List Char × List Char) :=
  let joined (date s : List Char) : Option (List Char × List Char) := do
    let (time, s) ← time? s
    let (offset, s) ← offset? s
    return (date ++ 'T' :: time ++ offset, s)
  match date? s with
  | none => time? s
  | some (date, c :: t) =>
    if c = 'T' || c = 't' then joined date t
    else if c = ' ' && (time? t).isSome then joined date t
    else some (date, c :: t)
  | some (date, []) => some (date, [])

def isScalarChar (c : Char) : Bool :=
  c.isAlphanum || c == '_' || c == '+' || c == '-' || c == '.'

def scalar? (s : List Char) : Option (Json × List Char) :=
  match moment? s with
  | some (text, rest) =>
    some (.obj [("$__toml_private_datetime", .str (String.ofList text))], rest)
  | none =>
    let text := s.takeWhile isScalarChar
    let rest := s.dropWhile isScalarChar
    if text = "true".toList then some (.bool true, rest)
    else if text = "false".toList then some (.bool false, rest)
    else (number? text).map (·, rest)

end Lamina.Toml
