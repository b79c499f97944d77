/-! Decimal forms of binary floating point values, by exact arithmetic on naturals. A value is a
mantissa times a power of two; its decimal form is the nearest one with a set number of digits,
or the one with the fewest digits that still rounds to the value. -/

namespace Lamina

/-- The magnitude `mantissa * 2 ^ exponent`. -/
structure Binary where
  mantissa : Nat
  exponent : Int
  deriving DecidableEq, Repr

/-- The magnitude `digits * 10 ^ exponent`. -/
structure Decimal where
  digits : Nat
  exponent : Int
  deriving DecidableEq, Repr

namespace Binary

def ofFloat (x : Float) : Binary :=
  let bits : Nat := x.toBits.toNat
  let biased : Nat := bits / Nat.pow 2 52 % 2048
  let fraction := bits % Nat.pow 2 52
  if biased = 0 then ⟨fraction, -1074⟩ else ⟨fraction + Nat.pow 2 52, (biased : Int) - 1075⟩

def num (b : Binary) : Nat := b.mantissa * Nat.pow 2 b.exponent.toNat

def den (b : Binary) : Nat := Nat.pow 2 (-b.exponent).toNat

def width (n : Nat) : Nat := (Nat.toDigits 10 n).length

/-- The least `k` with the value below `10 ^ k`, for a value other than zero. -/
def scale (b : Binary) : Int :=
  if b.den ≤ b.num then width (b.num / b.den) else 1 - (width ((b.den - 1) / b.num) : Int)

/-- The greatest multiple of `10 ^ e` not above the value, in units of `10 ^ e`, and the value's
distance from it as a fraction of a unit. -/
def onGrid (b : Binary) (e : Int) : Nat × Nat × Nat :=
  let num := b.num * Nat.pow 10 (-e).toNat
  let den := b.den * Nat.pow 10 e.toNat
  (num / den, num % den, den)

/-- Whether `d` lies among the numbers that round to the value: at most half a unit in the last
place away, where the unit below a power of two is half as large, ends included for an even
mantissa. -/
def readsBack (b : Binary) (d : Decimal) : Bool :=
  let narrow := b.mantissa = Nat.pow 2 52 && b.exponent > -1074
  let low : Binary :=
    if narrow then ⟨4 * b.mantissa - 1, b.exponent - 2⟩ else ⟨2 * b.mantissa - 1, b.exponent - 1⟩
  let high : Binary := ⟨2 * b.mantissa + 1, b.exponent - 1⟩
  let num := d.digits * Nat.pow 10 d.exponent.toNat
  let den := Nat.pow 10 (-d.exponent).toNat
  let lowNum := low.num * den
  let lowDen := num * low.den
  let highNum := high.num * den
  let highDen := num * high.den
  if b.mantissa % 2 = 0 then lowNum ≤ lowDen && highDen ≤ highNum
  else lowNum < lowDen && highDen < highNum

/-- The nearer of the two neighbours with unit `10 ^ e` that read back; a tie goes to the even
one. -/
def shortestOn (b : Binary) (e : Int) : Option Decimal :=
  let (floor, rest, den) := b.onGrid e
  let below : Decimal := ⟨floor, e⟩
  let above : Decimal := ⟨floor + 1, e⟩
  let nearer :=
    if 2 * rest < den then below
    else if den < 2 * rest then above
    else if floor % 2 = 0 then below else above
  match b.readsBack below, b.readsBack above with
  | true, true => some nearer
  | true, false => some below
  | false, true => some above
  | false, false => none

/-- The decimal with the fewest digits that rounds to the value; seventeen always suffice. -/
def shortest (b : Binary) : Decimal :=
  if b.mantissa = 0 then ⟨0, 0⟩
  else
    let k := b.scale
    ((List.range 17).findSome? fun (n : Nat) => b.shortestOn (k - (n + 1))).getD
      ⟨b.num * Nat.pow 5 (-b.exponent).toNat, min b.exponent 0⟩

def rounded (b : Binary) (n : Nat) : Decimal :=
  if b.mantissa = 0 then ⟨0, 0⟩
  else
    let e := b.scale - n
    let (floor, rest, den) := b.onGrid e
    if den < 2 * rest || (2 * rest = den && floor % 2 = 1) then ⟨floor + 1, e⟩ else ⟨floor, e⟩

end Binary

/-- The double nearest to the quotient of two naturals; a tie goes to the even one, and what is too
large is infinite. With the exponent `q` of the last place of the result, its bits are the rounded
number of units above `(q + 1074) * 2 ^ 52`, also when rounding carries into the exponent. -/
def nearestFloat (num den : Nat) : Float :=
  if num = 0 || den = 0 then 0.0
  else
    let e : Int := (num.log2 : Int) - den.log2
    let e := if num * Nat.pow 2 (-e).toNat < den * Nat.pow 2 e.toNat then e - 1 else e
    let q := max (e - 52) (-1074)
    let num := num * Nat.pow 2 (-q).toNat
    let den := den * Nat.pow 2 q.toNat
    let floor := num / den
    let rest := num % den
    let units := if den < 2 * rest || (2 * rest = den && floor % 2 = 1) then floor + 1 else floor
    Float.ofBits (min ((q + 1074).toNat * Nat.pow 2 52 + units) (2047 * Nat.pow 2 52)).toUInt64

def Binary.toFloat (b : Binary) : Float :=
  let top := b.mantissa.log2 + b.exponent
  if top < -1080 then 0.0
  else if 1030 < top then nearestFloat (if b.mantissa = 0 then 0 else Nat.pow 2 1030) 1
  else nearestFloat b.num b.den

namespace Decimal

def toFloat (d : Decimal) : Float :=
  let top := Binary.width d.digits + d.exponent
  if top < -330 then 0.0
  else if 310 < top then nearestFloat (if d.digits = 0 then 0 else Nat.pow 2 1030) 1
  else nearestFloat (d.digits * Nat.pow 10 d.exponent.toNat) (Nat.pow 10 (-d.exponent).toNat)

/-- The digits without zeros at the end, and the exponent of the first of them. -/
def scientific (d : Decimal) : List Char × Int :=
  let digits := Nat.toDigits 10 d.digits
  let kept := (digits.reverse.dropWhile (· == '0')).reverse
  if kept.isEmpty then (['0'], 0) else (kept, d.exponent + digits.length - 1)

/-- Positional notation; a number without a fraction has none after it. -/
def positional (digits : List Char) (e : Int) : List Char :=
  if e < 0 then '0' :: '.' :: List.replicate (-e - 1).toNat '0' ++ digits
  else
    let whole := e.toNat + 1
    let front := digits.take whole ++ List.replicate (whole - digits.length) '0'
    let back := digits.drop whole
    if back.isEmpty then front else front ++ '.' :: back

def pointed : List Char → List Char
  | [] => []
  | [c] => [c]
  | c :: rest => c :: '.' :: rest

end Decimal

/-- How floating point numbers are written. -/
structure FloatFormat where
  select : Binary → Decimal
  /-- The least and greatest exponent written positionally. -/
  least : Int
  greatest : Int
  /-- Whether a positional number without a fraction ends in `.0`. -/
  pointZero : Bool
  /-- The least number of digits of an exponent. -/
  exponentWidth : Nat

namespace FloatFormat

def finite (f : FloatFormat) (x : Float) : String :=
  let (digits, e) := (f.select (.ofFloat x)).scientific
  let sign := if UInt64.size / 2 ≤ x.toBits.toNat then "-" else ""
  let body :=
    if f.least ≤ e && e ≤ f.greatest then
      Decimal.positional digits e ++
        if f.pointZero && digits.length ≤ e.toNat + 1 && 0 ≤ e then ['.', '0'] else []
    else
      let magnitude := Nat.toDigits 10 e.natAbs
      Decimal.pointed digits ++ 'e' :: (if e < 0 then '-' else '+') ::
        List.replicate (f.exponentWidth - magnitude.length) '0' ++ magnitude
  sign ++ String.ofList body

end FloatFormat

end Lamina
