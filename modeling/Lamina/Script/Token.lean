import Lamina.Script.Number
import Lamina.Text.Search

/-! Tokens of scripts. Each token carries the line on which it ends. Scanning stops at the first
text that is no token. -/

namespace Lamina.Script

inductive Lexeme
  | name (s : String)
  | keyword (s : String)
  | symbol (s : String)
  | text (b : ByteArray)
  | number (n : Number)
  | finish
  | bad (message : String)

def Lexeme.shown : Lexeme → String
  | name s | keyword s | symbol s => s
  | text b => "'" ++ Bytes.lossy b ++ "'"
  | number n => n.text
  | finish => "<eof>"
  | bad _ => ""

structure Token where
  lexeme : Lexeme
  line : Nat

namespace Token

def keywords : List String :=
  ["and", "break", "do", "else", "elseif", "end", "false", "for", "function", "goto", "if", "in",
    "local", "nil", "not", "or", "repeat", "return", "then", "true", "until", "while"]

def symbols : List String :=
  ["...", "..", "//", "::", "==", "~=", "<=", ">=", "<<", ">>"]

def isNameStart (c : Char) : Bool := c.isAlpha || c == '_'

def isNameChar (c : Char) : Bool := c.isAlphanum || c == '_'

def lineEnd? : List Char → Option (List Char)
  | '\n' :: '\r' :: s | '\r' :: '\n' :: s | '\n' :: s | '\r' :: s => some s
  | _ => none

def longOpen? (s : List Char) : Option (Nat × List Char) :=
  match s with
  | '[' :: s =>
    match s.dropWhile (· == '=') with
    | '[' :: rest => some ((s.takeWhile (· == '=')).length, rest)
    | _ => none
  | _ => none

def longClose? (level : Nat) (s : List Char) : Option (List Char) :=
  match s with
  | ']' :: s =>
    match s.dropWhile (· == '=') with
    | ']' :: rest => if (s.takeWhile (· == '=')).length = level then some rest else none
    | _ => none
  | _ => none

def push (b : ByteArray) (bytes : List UInt8) : ByteArray := bytes.foldl ByteArray.push b

def bytesOf (c : Char) : List UInt8 := (String.singleton c).toUTF8.toList

/-- The bytes up to the closing bracket behind those before, the number of lines passed and the
rest. Line endings become line feeds. -/
def longBody (level : Nat) :
    Nat → ByteArray → Nat → List Char → Option ByteArray × Nat × List Char
  | 0, _, lines, s => (none, lines, s)
  | fuel + 1, before, lines, s =>
    match longClose? level s with
    | some rest => (some before, lines, rest)
    | none =>
      match lineEnd? s with
      | some s => longBody level fuel (before.push 10) (lines + 1) s
      | none =>
        match s with
        | [] => (none, lines, [])
        | c :: s => longBody level fuel (push before (bytesOf c)) lines s

/-- A long bracket; a line ending right after the opening does not count. -/
def long (level fuel : Nat) (s : List Char) : Option ByteArray × Nat × List Char :=
  match lineEnd? s with
  | some s => longBody level fuel .empty 1 s
  | none => longBody level fuel .empty 0 s

def codeBytes (n : Nat) : List UInt8 :=
  if n < 0x80 then [n.toUInt8]
  else
    let count :=
      if n < 0x800 then 2 else if n < 0x10000 then 3 else if n < 0x200000 then 4
      else if n < 0x4000000 then 5 else 6
    let lead : Nat := 256 - 1 <<< (8 - count) + n >>> (6 * (count - 1))
    lead.toUInt8 :: (List.range (count - 1)).reverse.map fun i =>
      (128 + n >>> (6 * i) % 64).toUInt8

def skipSpace : Nat → List Char → Nat × List Char
  | 0, s => (0, s)
  | fuel + 1, s =>
    match lineEnd? s with
    | some s =>
      let (lines, s) := skipSpace fuel s
      (lines + 1, s)
    | none =>
      match s with
      | c :: rest => if isSpaceChar c then skipSpace fuel rest else (0, s)
      | [] => (0, s)

/-- What an escape stands for, after the backslash: bytes, lines passed and the rest. -/
def escape (fuel : Nat) (s : List Char) : Except String (List UInt8 × Nat × List Char) :=
  let one (n : Nat) (s : List Char) : Except String (List UInt8 × Nat × List Char) :=
    .ok ([n.toUInt8], 0, s)
  match lineEnd? s with
  | some s => .ok ([10], 1, s)
  | none =>
    match s with
    | 'a' :: s => one 7 s
    | 'b' :: s => one 8 s
    | 'f' :: s => one 12 s
    | 'n' :: s => one 10 s
    | 'r' :: s => one 13 s
    | 't' :: s => one 9 s
    | 'v' :: s => one 11 s
    | '\\' :: s => one 92 s
    | '"' :: s => one 34 s
    | '\'' :: s => one 39 s
    | 'x' :: a :: b :: s =>
      if isHex a && isHex b then one (natOf 16 [a, b]) s else .error "hexadecimal digit expected"
    | 'z' :: s =>
      let (lines, s) := skipSpace fuel s
      .ok ([], lines, s)
    | 'u' :: s =>
      match s with
      | '{' :: s =>
        let digits := s.takeWhile isHex
        match digits.isEmpty, s.dropWhile isHex with
        | false, '}' :: rest =>
          let n := natOf 16 digits
          if n < UInt32.size / 2 then .ok (codeBytes n, 0, rest) else .error "UTF-8 value too large"
        | true, _ => .error "hexadecimal digit expected"
        | false, _ => .error "missing '\x7d' in \\u\x7bxxxx\x7d"
      | _ => .error "missing '\x7b' in \\u\x7bxxxx\x7d"
    | c :: _ =>
      if c.isDigit then
        let digits := (s.take 3).takeWhile Char.isDigit
        let n := natOf 10 digits
        if n < 256 then one n (s.drop digits.length) else .error "decimal escape too large"
      else if c = 'x' then .error "hexadecimal digit expected"
      else .error "invalid escape sequence"
    | [] => .error "unfinished string"

/-- The bytes of a quoted string up to its closing quote, behind those before, the lines passed and
the rest. -/
def quoted (quote : Char) :
    Nat → ByteArray → Nat → List Char → Except (String × Nat) (ByteArray × Nat × List Char)
  | 0, _, lines, _ => .error ("unfinished string", lines)
  | fuel + 1, before, lines, s =>
    match s with
    | [] => .error ("unfinished string", lines)
    | c :: rest =>
      if c = quote then .ok (before, lines, rest)
      else if c = '\n' || c = '\r' then .error ("unfinished string", lines)
      else if c = '\\' then
        match escape fuel rest with
        | .error message => .error (message, lines)
        | .ok (bytes, passed, rest) => quoted quote fuel (push before bytes) (lines + passed) rest
      else quoted quote fuel (push before (bytesOf c)) lines rest

def numeralSpan (mark : Char) : List Char → List Char
  | [] => []
  | c :: s =>
    if c.toLower = mark then
      match s with
      | d :: s => if d = '+' || d = '-' then c :: d :: numeralSpan mark s
        else c :: numeralSpan mark (d :: s)
      | [] => [c]
    else if isHex c || c = '.' || isNameChar c then c :: numeralSpan mark s
    else []

/-- One token, or blank space passed over, at a line: what it is, the line after it, and the
rest. The fuel exceeds the number of characters. -/
def next (fuel line : Nat) (s : List Char) : Option Lexeme × Nat × List Char :=
  match lineEnd? s with
  | some s => (none, line + 1, s)
  | none =>
    match s with
    | [] => (some .finish, line, [])
    | '-' :: '-' :: s =>
      match longOpen? s with
      | some (level, s) =>
        let (text, lines, rest) := long level fuel s
        if text.isSome then (none, line + lines, rest)
        else (some (.bad "unfinished long comment"), line + lines, rest)
      | none => (none, line, s.dropWhile fun c => c != '\n' && c != '\r')
    | c :: rest =>
      if isSpaceChar c then (none, line, rest)
      else if isNameStart c then
        let word := String.ofList (s.takeWhile isNameChar)
        let lexeme := if keywords.contains word then Lexeme.keyword word else .name word
        (some lexeme, line, s.dropWhile isNameChar)
      else if c.isDigit || (c = '.' && (rest.head?.map Char.isDigit).getD false) then
        let hex := c = '0' && (rest.head?.map fun d => d == 'x' || d == 'X').getD false
        let span := numeralSpan (if hex then 'p' else 'e') s
        let lexeme :=
          match numeral? span with
          | some n => Lexeme.number n
          | none => .bad "malformed number"
        (some lexeme, line, s.drop span.length)
      else if c = '"' || c = '\'' then
        match quoted c fuel .empty 0 rest with
        | .ok (bytes, lines, rest) => (some (.text bytes), line + lines, rest)
        | .error (message, lines) => (some (.bad message), line + lines, [])
      else
        match longOpen? s with
        | some (level, s) =>
          match long level fuel s with
          | (some bytes, lines, rest) => (some (.text bytes), line + lines, rest)
          | (none, lines, rest) => (some (.bad "unfinished long string"), line + lines, rest)
        | none =>
          if c = '[' && rest.head? == some '=' then
            (some (.bad "invalid long string delimiter"), line, [])
          else
            match symbols.find? fun symbol => symbol.toList.isPrefixOf s with
            | some symbol => (some (.symbol symbol), line, s.drop symbol.length)
            | none => (some (.symbol (String.singleton c)), line, rest)

/-- The tokens from here on, in reverse behind those before; the last one is the end or no token. -/
def scan : Nat → List Token → Nat → List Char → List Token
  | 0, before, line, _ => ⟨.finish, line⟩ :: before
  | fuel + 1, before, line, s =>
    match next (fuel + 1) line s with
    | (none, line, rest) => scan fuel before line rest
    | (some .finish, line, _) => ⟨.finish, line⟩ :: before
    | (some (.bad message), line, _) => ⟨.bad message, line⟩ :: before
    | (some lexeme, line, rest) => scan fuel (⟨lexeme, line⟩ :: before) line rest

def ofChars (s : List Char) : List Token := (scan (s.length + 1) [] 1 s).reverse

end Token

end Lamina.Script
