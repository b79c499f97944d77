import Lamina.Script.Data
import Lamina.Script.Operation
import Lamina.Script.Pattern

/-! The functions that scripts can call and that are no scripts themselves. -/

namespace Lamina.Script

def Native.name : Native → String
  | tostring => "tostring" | tonumber => "tonumber" | type => "type" | error => "error"
  | assert => "assert" | pcall => "pcall" | select => "select" | next => "next" | pairs => "pairs"
  | ipairs => "ipairs" | rawget => "rawget" | rawset => "rawset" | rawequal => "rawequal"
  | rawlen => "rawlen" | setmetatable => "setmetatable" | getmetatable => "getmetatable"
  | upper => "string.upper" | lower => "string.lower" | rep => "string.rep" | len => "string.len"
  | sub => "string.sub" | reverse => "string.reverse" | byte => "string.byte"
  | char => "string.char" | find => "string.find" | capture => "string.match"
  | gsub => "string.gsub" | format => "string.format" | concat => "table.concat"
  | insert => "table.insert" | remove => "table.remove" | unpack => "table.unpack"
  | floor => "math.floor" | ceil => "math.ceil" | abs => "math.abs" | max => "math.max"
  | min => "math.min" | sqrt => "math.sqrt" | tointeger => "math.tointeger"
  | mathType => "math.type" | idle name | unsupported name => name
  | ipairsStep | encode | encodePretty | decode | arith _ | negate | lookup => "?"

/-- The arguments of a call, and the way to call others. -/
structure Args where
  native : Native
  values : List Value
  call : Caller

namespace Args

/-- Fails because of an argument, counted from one; a method counts the arguments after its
object. -/
def fail {α : Type} (a : Args) (n : Nat) (message : String) : Run α := do
  let naming? := (← MonadState.get).callers.head?.bind Activation.calleeNaming?
  let name := (naming?.map (·.name)).getD a.native.name
  let isMethod := (naming?.map (·.what)) == some "method"
  let n := if isMethod then n - 1 else n
  if n = 0 then Run.failCaller s!"calling '{name}' on bad self ({message})"
  Run.failCaller s!"bad argument #{n} to '{name}' ({message})"

def get? (a : Args) (n : Nat) : Option Value := a.values[n - 1]?

def get (a : Args) (n : Nat) : Value := (a.get? n).getD .nil

def failType {α : Type} (a : Args) (n : Nat) (expected : String) : Run α := do
  let got ←
    match a.get? n with
    | none => pure "no value"
    | some .null => pure "light userdata"
    | some v => Run.typeName v
  a.fail n s!"{expected} expected, got {got}"

def any (a : Args) (n : Nat) : Run Value :=
  match a.get? n with
  | some v => return v
  | none => a.fail n "value expected"

def bytes (a : Args) (n : Nat) : Run ByteArray :=
  match (a.get n).bytes? with
  | some b => return b
  | none => a.failType n "string"

def number (a : Args) (n : Nat) : Run Number :=
  match (a.get n).number? with
  | some x => return x
  | none => a.failType n "number"

def int (a : Args) (n : Nat) : Run Int := do
  match (← a.number n).toInt? with
  | some i => return i
  | none => a.fail n "number has no integer representation"

def intOr (a : Args) (n : Nat) (default : Int) : Run Int :=
  if (a.get n).isNil then return default else a.int n

def bytesOr (a : Args) (n : Nat) (default : ByteArray) : Run ByteArray :=
  if (a.get n).isNil then return default else a.bytes n

def table (a : Args) (n : Nat) : Run Nat :=
  match a.get n with
  | .table place => return place
  | _ => a.failType n "table"

def utf8 (a : Args) (n : Nat) : Run String :=
  let refuse (kind reason : String) : Run String :=
    Run.raise (.failure s!"bad argument #{n}: error converting Lua {kind} to String ({reason})")
  match a.get n with
  | .number (.int i) => return toString i
  | v =>
    match v.bytes? with
    | none =>
      refuse v.kindName "expected string or number"
    | some b =>
      match String.fromUTF8? b with
      | some s => return s
      | none => refuse "string" (Bytes.faultText b)

def length (a : Args) (n : Nat) : Run Int := do
  discard (a.table n)
  match ← Run.length a.call (a.get n) .elsewhere with
  | .number (.int k) => return k
  | _ => Run.failCaller "object length is not an integer"

def item (a : Args) (n : Nat) (i : Int) : Run Value :=
  Run.index a.call (a.get n) (.int i) .elsewhere

def setItem (a : Args) (n : Nat) (i : Int) (v : Value) : Run Unit :=
  Run.setIndex a.call (a.get n) (.int i) v .elsewhere

def items (a : Args) (n : Nat) (first last : Int) : Run (List Value) :=
  (List.range (last - first + 1).toNat).mapM fun (i : Nat) => a.item n (first + i)

end Args

/-! ### Texts -/

def captureValue (c : Pattern.Capture) : Value :=
  if c.isPosition then .int (c.start + 1)
  else .text (Bytes.ofChars (c.text.take (c.length.getD 0)))

def matchValues (f : Pattern.Found) : List Value :=
  if f.captures.isEmpty then [.text (Bytes.ofChars f.whole)] else f.captures.map captureValue

def compilePattern (b : ByteArray) : Run Pattern.Compiled :=
  match Pattern.compile (Bytes.chars b) with
  | .ok compiled => return compiled
  | .error message => Run.failCaller message

def searchText (a : Args) (positions : Bool) : Run (List Value) := do
  let b ← a.bytes 1
  let p ← a.bytes 2
  let start ← a.intOr 3 1
  let start := if start < 0 then max (b.size + start + 1) 1 else max start 1
  if start > b.size + 1 then return [.nil]
  let plain := positions && (a.get 4).truthy
  let compiled ←
    if plain then pure ⟨false, (Bytes.chars p).map fun c => .single (.char c) .once⟩
    else compilePattern p
  let place := (Pattern.Place.ofText (Bytes.chars b)).skip (start - 1).toNat
  match Pattern.search compiled (b.size + 2) place with
  | none => return [.nil]
  | some f =>
    if positions then
      return .int (f.start.offset + 1) :: .int f.finish.offset :: f.captures.map captureValue
    else return matchValues f

/-- A replacement text, in which `%1` is the first capture and `%0` the match. -/
def expand (f : Pattern.Found) : List Char → Run (List Char)
  | '%' :: c :: rest => do
    let rest ← expand f rest
    if c = '%' then return '%' :: rest
    else if c = '0' then return f.whole ++ rest
    else if c.isDigit then
      match (matchValues f)[c.toNat - '1'.toNat]? with
      | some v => return Bytes.chars ((v.bytes?).getD .empty) ++ rest
      | none =>
        let n := c.toNat - '0'.toNat
        Run.failCaller s!"invalid capture index %{n} in replacement string"
    else Run.failCaller "invalid use of '%' in replacement string"
  | c :: rest => return c :: (← expand f rest)
  | [] => return []

def replacement (a : Args) (f : Pattern.Found) : Run (Option ByteArray) := do
  let first := (matchValues f).headD .nil
  let v ←
    match a.get 3 with
    | .table _ => Run.index a.call (a.get 3) first .elsewhere
    | .closure _ | .native _ => Run.callOne a.call (a.get 3) (matchValues f)
    | r => return some (Bytes.ofChars (← expand f (Bytes.chars ((r.bytes?).getD .empty))))
  if !v.truthy then return none
  match v.bytes? with
  | some b => return some b
  | none => Run.failCaller s!"invalid replacement value (a {v.typeName})"

/-- The text behind `out` with up to `limit` matches replaced, and how many there were. A match that
is empty does not follow another one. -/
def substitute (a : Args) (p : Pattern.Compiled) (limit : Nat) :
    Nat → ByteArray → Nat → Option Nat → Pattern.Place → Run (ByteArray × Nat)
  | 0, out, count, _, _ => return (out, count)
  | fuel + 1, out, count, last?, place => do
    if count ≥ limit then return (out ++ Bytes.ofChars place.rest, count)
    match (p.here place).filter fun f => last? != some f.finish.offset with
    | some f =>
      let out := out ++ (← replacement a f).getD (Bytes.ofChars f.whole)
      if p.anchored then return (out ++ Bytes.ofChars f.finish.rest, count + 1)
      substitute a p limit fuel out (count + 1) (some f.finish.offset) f.finish
    | none =>
      match place.rest with
      | [] => return (out, count)
      | c :: rest =>
        let out := out.push c.toNat.toUInt8
        if p.anchored then return (out ++ Bytes.ofChars rest, count)
        substitute a p limit fuel out count last? (place.skip 1)

def fixed (x : Float) (places : Nat) : String :=
  if x.isNaN || x.isInf then (floatText x)
  else
    let b := Binary.ofFloat x
    let num := b.num * Nat.pow 10 places
    let floor := num / b.den
    let rest := 2 * (num % b.den)
    let n := if rest > b.den || (rest == b.den && floor % 2 == 1) then floor + 1 else floor
    let digits := Nat.toDigits 10 n
    let digits := List.replicate (places + 1 - digits.length) '0' ++ digits
    let front := digits.take (digits.length - places)
    let back := digits.drop (digits.length - places)
    let body := if places = 0 then front else front ++ '.' :: back
    String.ofList (if isNegative x then '-' :: body else body)

def padText (left zero : Bool) (width : Nat) (s : List Char) : List Char :=
  let missing := width - s.length
  if left then s ++ List.replicate missing ' '
  else if zero then
    match s with
    | '-' :: rest => '-' :: List.replicate missing '0' ++ rest
    | rest => List.replicate missing '0' ++ rest
  else List.replicate missing ' ' ++ s

/-- The text of a format from here on, whose next argument is the `n`th. -/
def formatText (a : Args) : Nat → List Char → Nat → Run (List Char)
  | 0, _, _ => return []
  | _, [], _ => return []
  | fuel + 1, '%' :: '%' :: s, n => return '%' :: (← formatText a fuel s n)
  | fuel + 1, '%' :: s, n => do
    let flags := s.takeWhile fun c => c == '-' || c == '0' || c == '+' || c == ' ' || c == '#'
    let s := s.drop flags.length
    let width := s.takeWhile Char.isDigit
    let s := s.drop width.length
    let (places?, s) :=
      match s with
      | '.' :: s => (some (natOf 10 (s.takeWhile Char.isDigit)), s.dropWhile Char.isDigit)
      | s => (none, s)
    let pad := padText (flags.contains '-') (flags.contains '0') (natOf 10 width)
    let digits (i : Int) : List Char := Nat.toDigits 16 (i % UInt64.size).toNat
    let (piece, s) ←
      match s with
      | 's' :: s =>
        let text := Bytes.chars (← Run.text a.call (← a.any n))
        pure (pad ((places?.map text.take).getD text), s)
      | 'd' :: s | 'i' :: s => pure (pad (toString (← a.int n)).toList, s)
      | 'x' :: s => pure (pad (digits (← a.int n)), s)
      | 'X' :: s => pure (pad ((digits (← a.int n)).map Char.toUpper), s)
      | 'c' :: s => pure (pad [Char.ofNat ((← a.int n) % 256).toNat], s)
      | 'f' :: s => pure (pad (fixed (← a.number n).toFloat (places?.getD 6)).toList, s)
      | _ => Run.failCaller "invalid conversion to 'format'"
    return piece ++ (← formatText a fuel s (n + 1))
  | fuel + 1, c :: s, n => return c :: (← formatText a fuel s n)

/-- Arithmetic on texts that spell numbers; the other operand may have a function for it. -/
def textArith (a : Args) (event : String)
    (apply : Number → Number → Run Value) : Run (List Value) := do
  match (a.get 1).number?, (a.get 2).number? with
  | some m, some n => return [← apply m n]
  | _, _ =>
    let handler ←
      match a.get 2 with
      | .text _ => pure .nil
      | v => Run.metafield v ("__" ++ event)
    if handler.isNil then
      let left := (a.get 1).typeName
      let right := (a.get 2).typeName
      Run.failCaller s!"attempt to {event} a '{left}' with a '{right}'"
    return [← Run.callOne a.call handler [a.get 1, a.get 2]]

/-! ### Numbers -/

def wholeNumber (x : Float) : Number :=
  match (integer? x).filter fits with
  | some n => .int n
  | none => .ofFloat x

def basedNumber? (base : Nat) (b : ByteArray) : Option Int :=
  let (negative, s) :=
    match trimSpace (Bytes.chars b) with
    | '-' :: s => (true, s)
    | s => (false, s)
  let digit (c : Char) : Nat :=
    if c.isDigit then c.toNat - '0'.toNat
    else if c.isAlpha then c.toLower.toNat - 'a'.toNat + 10
    else 36
  if s.isEmpty || !(s.all fun c => digit c < base) then none
  else
    let n : Int := s.foldl (fun n c => n * base + digit c) 0
    some (wrap (if negative then -n else n))

/-! ### All functions -/

/-- What a function does with its arguments; those that call scripts by themselves are elsewhere. -/
def applyNative (a : Args) : Run (List Value) := do
  let text (b : ByteArray) : Run (List Value) := return [.text b]
  let number (n : Number) : Run (List Value) := return [.number n]
  let extreme (better : Number → Number → Bool) : Run (List Value) := do
    let first ← a.number 1
    let rest ← (List.range (a.values.length - 1)).mapM fun i => a.number (i + 2)
    number (rest.foldl (fun best n => if better n best then n else best) first)
  match a.native with
  | .tostring => text (← Run.text a.call (← a.any 1))
  | .type => return [.ofString (← a.any 1).typeName]
  | .tonumber =>
    if (a.get 2).isNil then
      let v ← a.any 1
      return [(v.number?.map .number).getD .nil]
    else
      let base ← a.int 2
      let b ← a.bytes 1
      return [((basedNumber? base.toNat b).map .int).getD .nil]
  | .error =>
    let level ← a.intOr 2 1
    match a.get 1 with
    | .text b =>
      if level > 0 then
        let place ← Run.position level.toNat
        Run.raise (.text (place.toUTF8 ++ b))
      else Run.raise (.text b)
    | v => Run.raise v
  | .assert =>
    if (← a.any 1).truthy then return a.values
    else
      match a.get? 2 with
      | some v => Run.raise v
      | none => Run.raise (.ofString "assertion failed!")
  | .select =>
    let count : Int := a.values.length
    let isCount :=
      match a.get 1 with
      | .text b => b == "#".toUTF8
      | _ => false
    if isCount then return [.int (count - 1)]
    let n ← a.int 1
    let n := if n < 0 then count + n else min n count
    if n < 1 then a.fail 1 "index out of range"
    return a.values.drop n.toNat
  | .next =>
    let place ← a.table 1
    match (← Run.fields place).next? (a.get 2) with
    | some (some (k, v)) => return [k, v]
    | some none => return [.nil]
    | none => Run.fail "invalid key to 'next'"
  | .pairs =>
    let handler ← Run.metafield (← a.any 1) "__pairs"
    if handler.isNil then return [.native .next, a.get 1, .nil]
    let results ← a.call handler [a.get 1]
    return (results ++ List.replicate 3 Value.nil).take 3
  | .ipairs => return [.native .ipairsStep, ← a.any 1, .int 0]
  | .ipairsStep =>
    let i := wrap ((← a.int 2) + 1)
    let v ← a.item 1 i
    return if v.isNil then [.nil] else [.int i, v]
  | .rawget => return [← Run.rawGet (← a.table 1) (← a.any 2)]
  | .rawset =>
    let place ← a.table 1
    let key ← a.any 2
    Run.setPlain place key (← a.any 3)
    return [a.get 1]
  | .rawequal => return [.bool ((← a.any 1).same (← a.any 2))]
  | .rawlen =>
    match a.get 1 with
    | .table place => return [.int (← Run.rawLength place)]
    | .text b => return [.int b.size]
    | _ => a.fail 1 "table or string expected"
  | .setmetatable =>
    let place ← a.table 1
    let meta? ←
      match a.get? 2 with
      | some .nil => pure none
      | some (.table m) => pure (some m)
      | _ => a.failType 2 "nil or table"
    let f ← Run.fields place
    if f.isList || !(← Run.metafield (a.get 1) "__metatable").isNil then
      Run.failCaller "cannot change a protected metatable"
    Run.onFields place fun f => { f with meta? }
    return [a.get 1]
  | .getmetatable =>
    match ← a.any 1 with
    | .table place =>
      let f ← Run.fields place
      if f.isList then return [.bool false]
      let shown ← Run.metafield (a.get 1) "__metatable"
      return [if shown.isNil then (f.meta?.map .table).getD .nil else shown]
    | .text _ => return [.table (← get).texts]
    | _ => return [.nil]
  | .upper => text (Bytes.ofChars ((Bytes.chars (← a.bytes 1)).map Char.toUpper))
  | .lower => text (Bytes.ofChars ((Bytes.chars (← a.bytes 1)).map Char.toLower))
  | .len => return [.int (← a.bytes 1).size]
  | .reverse => text (← a.bytes 1).toList.reverse.toByteArray
  | .rep =>
    let b ← a.bytes 1
    let n ← a.int 2
    let separator ← a.bytesOr 3 .empty
    if n ≤ 0 then text .empty
    else if (b.size + separator.size) * n.toNat ≥ UInt64.size / 2 then
      Run.failCaller "resulting string too large"
    else text (Bytes.join separator (List.replicate n.toNat b))
  | .sub => text (Bytes.slice (← a.bytes 1) (← a.int 2) (← a.intOr 3 (-1)))
  | .byte =>
    let b ← a.bytes 1
    let first ← a.intOr 2 1
    let last ← a.intOr 3 first
    return (Bytes.slice b first last).toList.map fun x => .int x.toNat
  | .char =>
    let codes ← (List.range a.values.length).mapM fun i => do
      let n ← a.int (i + 1)
      if n < 0 || 255 < n then a.fail (i + 1) "value out of range"
      return n.toNat.toUInt8
    text codes.toByteArray
  | .find => searchText a true
  | .capture => searchText a false
  | .gsub =>
    let b ← a.bytes 1
    let p ← a.bytes 2
    match a.get 3 with
    | .number _ | .text _ | .table _ | .closure _ | .native _ => pure ()
    | _ => a.failType 3 "string/function/table"
    let limit ← a.intOr 4 (b.size + 1)
    let p ← compilePattern p
    let (out, count) ← substitute a p limit.toNat (2 * b.size + 3) .empty 0 none
      (.ofText (Bytes.chars b))
    return [.text out, .int count]
  | .format =>
    let s := Bytes.chars (← a.bytes 1)
    text (Bytes.ofChars (← formatText a (s.length + 1) s 2))
  | .concat =>
    let length ← a.length 1
    let separator ← a.bytesOr 2 .empty
    let first ← a.intOr 3 1
    let last ← a.intOr 4 length
    let pieces ← (List.range (last - first + 1).toNat).mapM fun (i : Nat) => do
      let v ← a.item 1 (first + i)
      match v.bytes? with
      | some b => return b
      | none =>
        let n := first + i
        Run.failCaller s!"invalid value ({v.typeName}) at index {n} in table for 'concat'"
    text (Bytes.join separator pieces)
  | .insert =>
    let n := (← a.length 1) + 1
    match a.values.length with
    | 2 =>
      a.setItem 1 n (a.get 2)
      return []
    | 3 =>
      let position ← a.int 2
      if position < 1 || n < position then a.fail 2 "position out of bounds"
      let moved ← a.items 1 position (n - 1)
      moved.zipIdx.reverse.forM fun (v, i) => a.setItem 1 (position + 1 + i) v
      a.setItem 1 position (a.get 3)
      return []
    | _ => Run.failCaller "wrong number of arguments to 'insert'"
  | .remove =>
    let n ← a.length 1
    let position ← a.intOr 2 n
    if a.values.length > 1 && (n + 1 < position || position < (if n = 0 then 0 else 1)) then
      a.fail 2 "position out of bounds"
    let gone ← a.item 1 position
    let moved ← a.items 1 (position + 1) n
    moved.zipIdx.forM fun (v, i) => a.setItem 1 (position + i) v
    if position ≤ n then a.setItem 1 n .nil
    return [gone]
  | .unpack =>
    let first ← a.intOr 2 1
    let last ←
      if (a.get 3).isNil then
        match ← Run.length a.call (a.get 1) .elsewhere with
        | .number (.int k) => pure k
        | _ => Run.failCaller "object length is not an integer"
      else a.int 3
    if last - first ≥ Run.maxStack then Run.failCaller "too many results to unpack"
    a.items 1 first last
  | .floor =>
    match ← a.number 1 with
    | .float x => number (wholeNumber x.floor)
    | n => number n
  | .ceil =>
    match ← a.number 1 with
    | .float x => number (wholeNumber x.ceil)
    | n => number n
  | .abs =>
    match ← a.number 1 with
    | .int n => number (.int (wrap n.natAbs))
    | .float x => number (.float x.abs)
    | .nan _ => number (.nan false)
  | .max => extreme fun n best => best.lt n
  | .min => extreme fun n best => n.lt best
  | .sqrt => number (.ofFloat (← a.number 1).toFloat.sqrt)
  | .tointeger =>
    match a.get 1 with
    | .number n => return [(n.toInt?.map .int).getD .nil]
    | .text b => return [((textNumber? b).bind Number.toInt?).elim .nil .int]
    | _ =>
      discard (a.any 1)
      return [.nil]
  | .mathType =>
    match ← a.any 1 with
    | .number (.int _) => return [.ofString "integer"]
    | .number _ => return [.ofString "float"]
    | _ => return [.nil]
  | .arith op =>
    textArith a op.name fun m n => Run.arith a.call op (.number m) (.number n) .elsewhere .elsewhere
  | .negate => textArith a "unm" fun m _ => return .number m.neg
  | .encode => return [← encode false (a.get 1)]
  | .encodePretty => return [← encode true (a.get 1)]
  | .decode => return [← decode (← a.utf8 1)]
  | .unsupported name => Run.failCaller s!"'{name}' is not supported"
  | .pcall | .lookup | .idle _ => return []

/-! ### Global variables -/

def textFunctions : List (String × Native) :=
  [("upper", .upper), ("lower", .lower), ("rep", .rep), ("len", .len), ("sub", .sub),
    ("reverse", .reverse), ("byte", .byte), ("char", .char), ("find", .find), ("match", .capture),
    ("gsub", .gsub), ("format", .format)]

def unsupportedFunctions (space : String) (names : List String) : List (String × Native) :=
  names.map fun name => (name, .unsupported (space ++ "." ++ name))

def libraries : List (String × List (String × Native)) :=
  [("string", textFunctions ++
      unsupportedFunctions "string" ["dump", "gmatch", "pack", "packsize", "unpack"]),
    ("table", [("concat", .concat), ("insert", .insert), ("remove", .remove),
      ("unpack", .unpack)] ++ unsupportedFunctions "table" ["move", "pack", "sort"]),
    ("math", [("floor", .floor), ("ceil", .ceil), ("abs", .abs), ("max", .max), ("min", .min),
      ("sqrt", .sqrt), ("tointeger", .tointeger), ("type", .mathType)] ++
      unsupportedFunctions "math" ["acos", "asin", "atan", "cos", "deg", "exp", "fmod", "log",
        "modf", "rad", "random", "randomseed", "sin", "tan", "ult"]),
    ("json", [("encode", .encode), ("encode_pretty", .encodePretty), ("decode", .decode)]),
    ("os", unsupportedFunctions "os" ["date", "time", "clock", "difftime"]),
    ("utf8", unsupportedFunctions "utf8" ["char", "codepoint", "codes", "len", "offset"]),
    ("coroutine", unsupportedFunctions "coroutine"
      ["close", "create", "isyieldable", "resume", "running", "status", "wrap", "yield"]),
    ("package", unsupportedFunctions "package" ["loadlib", "searchpath"])]

def baseFunctions : List (String × Native) :=
  [("tostring", .tostring), ("tonumber", .tonumber), ("type", .type), ("error", .error),
    ("assert", .assert), ("pcall", .pcall), ("select", .select), ("next", .next),
    ("pairs", .pairs), ("ipairs", .ipairs), ("rawget", .rawget), ("rawset", .rawset),
    ("rawequal", .rawequal), ("rawlen", .rawlen), ("setmetatable", .setmetatable),
    ("getmetatable", .getmetatable), ("print", .idle "print"), ("warn", .idle "warn"),
    ("collectgarbage", .idle "collectgarbage"), ("require", .unsupported "require"),
    ("xpcall", .unsupported "xpcall")]

def textOperators : List (String × Native) :=
  ("__unm", .negate) :: [.add, .sub, .mul, .mod, .pow, .div, .idiv].map fun op =>
    ("__" ++ op.name, .arith op)

def constants : String → List (String × Value)
  | "json" => [("null", .null)]
  | "math" => [("pi", .number (.float 3.141592653589793)),
    ("huge", .number (.float (1.0 / 0.0))), ("maxinteger", .int Int64.maxValue.toInt),
    ("mininteger", .int Int64.minValue.toInt)]
  | _ => []

def Fields.ofMembers (members : List (String × Value)) : Fields :=
  members.foldl (fun f (name, v) => f.set (.ofString name) v) {}

def natives (functions : List (String × Native)) : List (String × Value) :=
  functions.map fun (name, f) => (name, .native f)

/-- A machine with nothing but the global variables. The libraries are the first tables, and the
first of them has the methods of texts. -/
def Machine.fresh (services : Services) : Machine :=
  let tables := libraries.map fun (name, functions) =>
    Fields.ofMembers (constants name ++ natives functions)
  let entries := libraries.zipIdx.map fun ((name, _), i) => (name, Value.table i)
  let globals := tables.length
  let texts := globals + 1
  let shared := Fields.ofMembers
    (("_G", .table globals) :: ("_VERSION", .ofString "Lua 5.4") :: entries ++
      natives baseFunctions)
  let methods := Fields.ofMembers (("__index", .table 0) :: natives textOperators)
  { tables := (tables ++ [shared, methods]).toArray, services, globals, texts }

end Lamina.Script
