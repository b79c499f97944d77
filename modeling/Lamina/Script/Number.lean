import Lamina.Decimal
import Lamina.Script.Bytes
import Lamina.Text.Digit

/-! Numbers of scripts: integers of 64 bits that wrap around, and doubles. What is no number has a
sign of its own. -/

namespace Lamina.Script

def wrap (n : Int) : Int := n.bmod UInt64.size

def fits (n : Int) : Bool := wrap n = n

inductive Number
  | int (n : Int)
  | float (x : Float)
  | nan (negative : Bool)
  deriving Repr

def isNegative (x : Float) : Bool := UInt64.size / 2 ≤ x.toBits.toNat

def integer? (x : Float) : Option Int :=
  if x.isNaN || x.isInf then none
  else
    let b := Binary.ofFloat x
    if b.num % b.den = 0 then
      let n : Int := b.num / b.den
      some (if isNegative x then -n else n)
    else none

def floorInt (x : Float) : Int :=
  let b := Binary.ofFloat x
  if isNegative x then -((b.num + b.den - 1) / b.den : Nat) else (b.num / b.den : Nat)

def floatFormat : FloatFormat := ⟨fun b => b.rounded 14, -4, 13, true, 2⟩

def floatText (x : Float) : String :=
  if x.isInf then if isNegative x then "-inf" else "inf" else floatFormat.finite x

namespace Number

/-- The result of an operation on doubles; one without a result is negative. -/
def ofFloat (x : Float) : Number := if x.isNaN then nan true else float x

def text : Number → String
  | int n => toString n
  | float x => floatText x
  | nan negative => if negative then "-nan" else "nan"

def toFloat : Number → Float
  | int n => Float.ofInt n
  | float x => x
  | nan _ => 0.0 / 0.0

def toInt? : Number → Option Int
  | int n => some n
  | float x => (integer? x).filter fits
  | nan _ => none

def isNaN : Number → Bool
  | nan _ => true
  | _ => false

def isZero : Number → Bool
  | int n => n = 0
  | float x => x == 0.0
  | nan _ => false

def beq : Number → Number → Bool
  | int a, int b => a == b
  | int a, float y => integer? y == some a
  | float x, int b => integer? x == some b
  | float x, float y => x == y
  | _, _ => false

def intLt (a : Int) (y : Float) : Bool :=
  if y.isInf then !isNegative y
  else a < floorInt y || (a == floorInt y && (integer? y).isNone)

def intLe (a : Int) (y : Float) : Bool := if y.isInf then !isNegative y else a ≤ floorInt y

def lt : Number → Number → Bool
  | int a, int b => a < b
  | int a, float y => intLt a y
  | float x, int b => !intLe b x
  | float x, float y => x < y
  | _, _ => false

def le : Number → Number → Bool
  | int a, int b => a ≤ b
  | int a, float y => intLe a y
  | float x, int b => !intLt b x
  | float x, float y => x ≤ y
  | _, _ => false

def neg : Number → Number
  | int n => int (wrap (-n))
  | float x => float (-x)
  | nan negative => nan !negative

end Number

/-- The remainder of doubles, with the sign of the divisor; there is none by zero or of what is
infinite. -/
def floatMod (x y : Float) : Number :=
  if x.isInf || y == 0.0 then .nan true
  else if y.isInf then
    .float (if x == 0.0 || isNegative x == isNegative y then x else y)
  else
    let a := Binary.ofFloat x
    let b := Binary.ofFloat y
    let e := min a.exponent b.exponent
    let m := a.mantissa * Nat.pow 2 (a.exponent - e).toNat
    let n := b.mantissa * Nat.pow 2 (b.exponent - e).toNat
    let rest := (Binary.mk (m % n) e).toFloat
    let rest := if isNegative x then -rest else rest
    .float (if rest != 0.0 && isNegative x != isNegative y then rest + y else rest)

inductive Arith
  | add
  | sub
  | mul
  | mod
  | pow
  | div
  | idiv
  | band
  | bor
  | bxor
  | shl
  | shr
  deriving DecidableEq, Repr

/-- Why numbers have no result. -/
inductive ArithFault
  | divisor
  | modulus
  | noInteger
  deriving DecidableEq, Repr

/-- Both kinds of shift, to the left by a distance that may be negative. -/
def shiftLeft (m n : Int) : Int :=
  let bits := (m % UInt64.size).toNat
  if n ≤ -64 || 64 ≤ n then 0
  else if n < 0 then wrap (bits >>> (-n).toNat)
  else wrap ((bits <<< n.toNat : Nat) : Int)

namespace Arith

def name : Arith → String
  | add => "add"
  | sub => "sub"
  | mul => "mul"
  | mod => "mod"
  | pow => "pow"
  | div => "div"
  | idiv => "idiv"
  | band => "band"
  | bor => "bor"
  | bxor => "bxor"
  | shl => "shl"
  | shr => "shr"

def isBitwise : Arith → Bool
  | band | bor | bxor | shl | shr => true
  | _ => false

def onBits (op : Arith) (m n : Int) : Int :=
  let bits (f : Nat → Nat → Nat) : Int :=
    wrap (f (m % UInt64.size).toNat (n % UInt64.size).toNat)
  match op with
  | band => bits (· &&& ·)
  | bor => bits (· ||| ·)
  | bxor => bits (· ^^^ ·)
  | shl => shiftLeft m n
  | _ => shiftLeft m (-n)

def onFloats (op : Arith) (x y : Float) : Number :=
  match op with
  | add => .ofFloat (x + y)
  | sub => .ofFloat (x - y)
  | mul => .ofFloat (x * y)
  | mod => floatMod x y
  | pow => .ofFloat (if y == 2.0 then x * x else x.pow y)
  | idiv => .ofFloat (x / y).floor
  | _ => .ofFloat (x / y)

/-- The result of an operation. What is no number stays so, the first operand before the second;
only a power of it may be a number. -/
def apply (op : Arith) (a b : Number) : Except ArithFault Number :=
  match op, a, b with
  | add, .int m, .int n => .ok (.int (wrap (m + n)))
  | sub, .int m, .int n => .ok (.int (wrap (m - n)))
  | mul, .int m, .int n => .ok (.int (wrap (m * n)))
  | idiv, .int m, .int n => if n = 0 then .error .divisor else .ok (.int (wrap (m.fdiv n)))
  | mod, .int m, .int n => if n = 0 then .error .modulus else .ok (.int (m.fmod n))
  | op, a, b =>
    if op.isBitwise then
      match a.toInt?, b.toInt? with
      | some m, some n => .ok (.int (op.onBits m n))
      | _, _ => .error .noInteger
    else if op = pow && (b.isZero || a.beq (.int 1)) then .ok (.float 1.0)
    else if a.isNaN then .ok a
    else if b.isNaN then .ok b
    else .ok (op.onFloats a.toFloat b.toFloat)

end Arith

/-! ### Numerals -/

def isHex (c : Char) : Bool := c.isDigit || ('a' ≤ c && c ≤ 'f') || ('A' ≤ c && c ≤ 'F')

def hexDigit (c : Char) : Nat :=
  if c.isDigit then c.toNat - '0'.toNat
  else if 'a' ≤ c && c ≤ 'f' then c.toNat - 'a'.toNat + 10
  else c.toNat - 'A'.toNat + 10

def natOf (base : Nat) (digits : List Char) : Nat :=
  digits.foldl (fun n c => n * base + hexDigit c) 0

/-- The parts of a numeral: digits before and behind the point, and the exponent. -/
def numeralParts? (isDigit : Char → Bool) (mark : Char) (s : List Char) :
    Option (List Char × Option (List Char) × Option Int) :=
  let front := s.takeWhile isDigit
  let (back, rest) :=
    match s.dropWhile isDigit with
    | '.' :: rest => (some (rest.takeWhile isDigit), rest.dropWhile isDigit)
    | rest => (none, rest)
  if front.isEmpty && (back.getD []).isEmpty then none
  else
    match rest with
    | [] => some (front, back, none)
    | c :: rest =>
      if c.toLower != mark then none
      else
        let (negative, digits) :=
          match rest with
          | '-' :: rest => (true, rest)
          | '+' :: rest => (false, rest)
          | rest => (false, rest)
        (Text.decimal? digits).map fun n => (front, back, some (if negative then -n else n))

/-- The number that a numeral spells, whose sign has been read. Decimal integers that do not fit
are doubles; hexadecimal ones wrap around. -/
def signedNumeral? (negative : Bool) (s : List Char) : Option Number :=
  let hex? : Option (List Char) :=
    match s with
    | '0' :: 'x' :: rest | '0' :: 'X' :: rest => some rest
    | _ => none
  let signed (n : Int) : Int := if negative then -n else n
  let float (x : Float) : Number := .float (if negative then -x else x)
  match hex? with
  | some rest => do
    let (front, back, e) ← numeralParts? isHex 'p' rest
    match back, e with
    | none, none => some (.int (wrap (signed (natOf 16 front))))
    | back, e =>
      let back := back.getD []
      some (float (Binary.mk (natOf 16 (front ++ back)) (e.getD 0 - 4 * back.length)).toFloat)
  | none => do
    let (front, back, e) ← numeralParts? Char.isDigit 'e' s
    let digits := natOf 10 (front ++ back.getD [])
    if back.isNone && e.isNone && fits (signed digits) then some (.int (signed digits))
    else
      some (float (Decimal.mk digits (e.getD 0 - (back.getD []).length)).toFloat)

def numeral? : List Char → Option Number := signedNumeral? false

def isSpaceChar (c : Char) : Bool :=
  c == ' ' || c == '\t' || c == '\n' || c == '\r' || c == '\x0b' || c == '\x0c'

def trimSpace (s : List Char) : List Char :=
  ((s.dropWhile isSpaceChar).reverse.dropWhile isSpaceChar).reverse

def textNumber? (b : ByteArray) : Option Number :=
  match trimSpace (Bytes.chars b) with
  | '-' :: s => signedNumeral? true s
  | '+' :: s => numeral? s
  | s => numeral? s

end Lamina.Script
