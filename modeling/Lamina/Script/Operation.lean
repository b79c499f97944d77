import Lamina.Script.Trace

/-! Operations on values. What a value cannot do by itself, the functions in the table that it has
in common with others do for it. -/

namespace Lamina.Script.Run

def maxChain : Nat := 2000

def isFunction : Value → Bool
  | .closure _ | .native _ => true
  | _ => false

section

variable (call : Caller)

def callOne (f : Value) (args : List Value) : Run Value := return (← call f args).headD .nil

/-! ### Fields -/

def indexIn : Nat → Value → Value → Holder → Run Value
  | 0, _, _, _ => fail "'__index' chain too long; possibly a loop"
  | fuel + 1, t, key, holder => do
    let handler ←
      match t with
      | .table place =>
        let v ← rawGet place key
        if !v.isNil then return v
        let handler ← metafield t "__index"
        if handler.isNil then return .nil
        pure handler
      | _ =>
        let handler ← metafield t "__index"
        if handler.isNil then failType "index" t holder
        pure handler
    if isFunction handler then callOne call handler [t, key]
    else indexIn fuel handler key .elsewhere

def index (t key : Value) (holder : Holder) : Run Value := indexIn call maxChain t key holder

def setPlain (place : Nat) (key v : Value) : Run Unit := do
  match key with
  | .nil => fail "table index is nil"
  | .number (.nan _) => fail "table index is NaN"
  | _ => rawSet place key v

def setIndexIn : Nat → Value → Value → Value → Holder → Run Unit
  | 0, _, _, _, _ => fail "'__newindex' chain too long; possibly a loop"
  | fuel + 1, t, key, v, holder => do
    let handler ←
      match t with
      | .table place =>
        if (← fields place).meta?.isNone then return ← setPlain place key v
        if !(← rawGet place key).isNil then return ← rawSet place key v
        let handler ← metafield t "__newindex"
        if handler.isNil then return ← setPlain place key v
        pure handler
      | _ =>
        let handler ← metafield t "__newindex"
        if handler.isNil then failType "index" t holder
        pure handler
    if isFunction handler then discard (call handler [t, key, v])
    else setIndexIn fuel handler key v .elsewhere

def setIndex (t key v : Value) (holder : Holder) : Run Unit :=
  setIndexIn call maxChain t key v holder

/-! ### Arithmetic -/

def handlerOf (a b : Value) (event : String) : Run Value := do
  let handler ← metafield a event
  if handler.isNil then metafield b event else return handler

def failOperand {α : Type} (operation : String) (a b : Value) (holdA holdB : Holder) : Run α :=
  match a with
  | .number _ => failType operation b holdB
  | _ => failType operation a holdA

def failArith {α : Type} (fault : ArithFault) (a : Value) (holdA holdB : Holder) : Run α := do
  match fault with
  | .divisor => fail "attempt to divide by zero"
  | .modulus => fail "attempt to perform 'n%%0'"
  | .noInteger =>
    let holder := if (a.number?.bind Number.toInt?).isSome then holdB else holdA
    let name := (((← get).current.naming? holder).map Naming.text).getD ""
    fail s!"number{name} has no integer representation"

def arith (op : Arith) (a b : Value) (holdA holdB : Holder) : Run Value := do
  let apply (m n : Number) : Run Value :=
    match op.apply m n with
    | .ok n => return .number n
    | .error fault => failArith fault a holdA holdB
  let handled : Run Value := do
    let handler ← handlerOf a b ("__" ++ op.name)
    if handler.isNil then
      if op.isBitwise then
        match a, b with
        | .number m, .number n => apply m n
        | _, _ => failOperand "perform bitwise operation on" a b holdA holdB
      else failOperand "perform arithmetic on" a b holdA holdB
    else callOne call handler [a, b]
  match a, b with
  | .number m, .number n =>
    if op.isBitwise && (m.toInt?.isNone || n.toInt?.isNone) then handled else apply m n
  | _, _ =>
    if op.isBitwise then
      match a.number?.bind Number.toInt?, b.number?.bind Number.toInt? with
      | some m, some n => return .int (op.onBits m n)
      | _, _ => handled
    else handled

def negate (v : Value) (holder : Holder) : Run Value := do
  match v with
  | .number n => return .number n.neg
  | _ =>
    let handler ← metafield v "__unm"
    if handler.isNil then failType "perform arithmetic on" v holder
    else callOne call handler [v, v]

def complement (v : Value) (holder : Holder) : Run Value := do
  match v.number?.bind Number.toInt? with
  | some n => return .int (wrap (-n - 1))
  | none =>
    let handler ← metafield v "__bnot"
    if !handler.isNil then callOne call handler [v, v]
    else
      match v with
      | .number _ => failArith .noInteger v holder holder
      | _ => failType "perform bitwise operation on" v holder

/-! ### Texts -/

def length (v : Value) (holder : Holder) : Run Value := do
  let other : Run Value := do
    let handler ← metafield v "__len"
    if handler.isNil then
      match v with
      | .table place => return .int (← rawLength place)
      | _ => failType "get length of" v holder
    else callOne call handler [v, v]
  match v with
  | .text b => return .int b.size
  | .table place => if (← fields place).meta?.isNone then return .int (← rawLength place) else other
  | _ => other

/-- Joins values from the right, each with what follows it; the last of them is in a register. -/
def concat : List Value → Nat → Value → Run Value
  | [], _, last => return last
  | v :: before, r, last => do
    let joined ←
      match v.bytes?, last.bytes? with
      | some a, some b => pure (.text (a ++ b))
      | a?, _ =>
        let handler ← handlerOf v last "__concat"
        if !handler.isNil then callOne call handler [v, last]
        else if a?.isSome then failType "concatenate" last (.register r)
        else failType "concatenate" v (.register (r - 1))
    concat before (r - 1) joined

/-! ### Comparison -/

def equal (a b : Value) : Run Bool := do
  if a.same b then return true
  match a, b with
  | .table _, .table _ =>
    let handler ← handlerOf a b "__eq"
    if handler.isNil then return false
    return (← callOne call handler [a, b]).truthy
  | _, _ => return false

def failOrder {α : Type} (a b : Value) : Run α := do
  let s ← typeName a
  let t ← typeName b
  if s = t then fail s!"attempt to compare two {s} values"
  else fail s!"attempt to compare {s} with {t}"

def compare (event : String) (numbers : Number → Number → Bool)
    (texts : ByteArray → ByteArray → Bool) (a b : Value) : Run Bool := do
  match a, b with
  | .number m, .number n => return numbers m n
  | .text s, .text t => return texts s t
  | _, _ =>
    let handler ← handlerOf a b event
    if handler.isNil then failOrder a b
    return (← callOne call handler [a, b]).truthy

def less (a b : Value) : Run Bool := compare call "__lt" Number.lt Bytes.lt a b

def lessEq (a b : Value) : Run Bool :=
  compare call "__le" Number.le (fun s t => !Bytes.lt t s) a b

/-! ### Names -/

def address (place : Nat) : String :=
  let digits := Nat.toDigits 16 (0x55550000 + 64 * place)
  "0x" ++ String.ofList (List.replicate (12 - digits.length) '0' ++ digits)

def plainText : Value → ByteArray
  | .nil => "nil".toUTF8
  | .bool b => (toString b).toUTF8
  | .number n => n.text.toUTF8
  | .text b => b
  | .table place => ("table: " ++ address place).toUTF8
  | .closure place => ("function: " ++ address place).toUTF8
  | .native f => ("function: builtin: " ++ address (hash (reprStr f)).toNat).toUTF8
  | .null => "userdata: (nil)".toUTF8
  | .failure message => message.toUTF8

def text (v : Value) : Run ByteArray := do
  let handler ← metafield v "__tostring"
  if !handler.isNil then
    match ← callOne call handler [v] with
    | .text b => return b
    | .number n => return n.text.toUTF8
    | _ => failCaller "'__tostring' must return a string"
  else
    match v with
    | .table place =>
      match ← metafield v "__name" with
      | .text name => return name ++ (": " ++ address place).toUTF8
      | _ => return plainText v
    | _ => return plainText v

end

end Lamina.Script.Run
