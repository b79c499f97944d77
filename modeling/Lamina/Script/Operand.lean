import Lamina.Script.Assembly

/-! Expressions whose code is being written. Code is put off as long as possible, so an expression
is first only known to be a constant, a variable, a field or the outcome of a test. -/

namespace Lamina.Script

inductive OperandKind
  | void
  | nil
  | bool (b : Bool)
  | number (n : Number)
  | text (b : ByteArray)
  | const (k : Nat)
  | reg (r : Nat)
  | variableAt (r i : Nat)
  | upvalue (u : Nat)
  | known (v : Value) (name : String)
  | element (t key : Nat)
  | item (t n : Nat)
  | field (t k : Nat)
  | upField (u k : Nat)
  | test (pc : Nat)
  /-- An instruction that has no register to set yet. -/
  | pending (pc : Nat)
  | call (pc : Nat)
  | vararg (pc : Nat)
  deriving Inhabited

/-- An expression, with the jumps out of it that are taken if it is true or false. -/
structure Operand where
  kind : OperandKind
  yes : List Nat := []
  no : List Nat := []
  deriving Inhabited

/-- Operators between two operands, in the order of their signs. -/
inductive Binary
  | arith (op : Arith)
  | concat
  | equal
  | unequal
  | less
  | lessEq
  | greater
  | greaterEq
  | and
  | or

namespace Operand

def hasJumps (e : Operand) : Bool := !e.yes.isEmpty || !e.no.isEmpty

def isOpen (e : Operand) : Bool :=
  match e.kind with
  | .call _ | .vararg _ => true
  | _ => false

def isIndexed (e : Operand) : Bool :=
  match e.kind with
  | .element .. | .item .. | .field .. | .upField .. => true
  | _ => false

def isTarget (e : Operand) : Bool :=
  e.isIndexed ||
    match e.kind with
    | .variableAt .. | .upvalue _ | .known .. => true
    | _ => false

def numeral? (e : Operand) : Option Number :=
  match e.kind with
  | .number n => if e.hasJumps then none else some n
  | _ => none

def integer? (e : Operand) : Option Int :=
  match e.numeral? with
  | some (.int n) => some n
  | _ => none

def isShort (n : Int) : Bool := -127 ≤ n && n ≤ 128

def shortInteger? (e : Operand) : Option Int := e.integer?.filter isShort

def shortNumber? (e : Operand) : Option Number :=
  match e.numeral? with
  | some n => if (n.toInt?.map isShort).getD false then some n else none
  | none => none

def value? (e : Operand) : Option Value :=
  if e.hasJumps then none
  else
    match e.kind with
    | .nil => some .nil
    | .bool b => some (.bool b)
    | .text b => some (.text b)
    | .number n => some (.number n)
    | .known v _ => some v
    | _ => none

end Operand

namespace OperandKind

def ofValue : Value → OperandKind
  | .bool b => bool b
  | .number n => number n
  | .text b => text b
  | _ => nil

end OperandKind

namespace Asm

def ofKind (kind : OperandKind) : Operand := { kind }

def releaseOperand (e : Operand) : Asm Unit :=
  match e.kind with
  | .reg r => release r
  | _ => pure ()

def releaseBoth (r₁ r₂ : Nat) : Asm Unit := do
  release (max r₁ r₂)
  release (min r₁ r₂)

def releaseOperands (e₁ e₂ : Operand) : Asm Unit :=
  match e₁.kind, e₂.kind with
  | .reg r₁, .reg r₂ => releaseBoth r₁ r₂
  | _, _ => do
    releaseOperand e₁
    releaseOperand e₂

def setResults (e : Operand) (count? : Option Nat) : Asm Unit := do
  match e.kind with
  | .call pc =>
    rework pc fun
      | .call a args _ => .call a args count?
      | i => i
  | .vararg pc =>
    let a := (← func).free
    rework pc fun _ => .vararg a count?
    reserve 1
  | _ => pure ()

def single (e : Operand) : Asm Operand := do
  match e.kind with
  | .call pc =>
    match ← instr pc with
    | .call a .. => return { e with kind := .reg a }
    | _ => return e
  | .vararg pc =>
    rework pc fun _ => .vararg 0 (some 1)
    return { e with kind := .pending pc }
  | _ => return e

def fetch (e : Operand) : Asm Operand := do
  let pending (i : Instr) : Asm Operand := return { e with kind := .pending (← emit i) }
  match e.kind with
  | .known v _ => return { e with kind := .ofValue v }
  | .variableAt r _ => return { e with kind := .reg r }
  | .upvalue u => pending (.getUpvalue 0 u)
  | .upField u k => pending (.getUpField 0 u k)
  | .item t n =>
    release t
    pending (.getIndex 0 t n)
  | .field t k =>
    release t
    pending (.getField 0 t k)
  | .element t key =>
    releaseBoth t key
    pending (.getKey 0 t key)
  | _ => single e

def isImmediate (n : Number) : Bool :=
  (n.toInt?.map fun i => -65535 ≤ i && i ≤ 65536).getD false

def settle (e : Operand) (r : Nat) : Asm Operand := do
  let e ← fetch e
  let done : Operand := { e with kind := .reg r }
  match e.kind with
  | .nil => loadNil r 1
  | .bool b => discard (emit (if b then .loadTrue r else .loadFalse r))
  | .text b => discard (emit (.loadConst r (← constant (.text b))))
  | .const k => discard (emit (.loadConst r k))
  | .number n =>
    if isImmediate n then discard (emit (.loadNumber r n))
    else discard (emit (.loadConst r (← constant (.number n))))
  | .pending pc => rework pc (·.into r)
  | .reg s => if r != s then discard (emit (.move r s))
  | _ => return e
  return done

def settleAnywhere (e : Operand) : Asm Operand := do
  match e.kind with
  | .reg _ => return e
  | _ =>
    reserve 1
    settle e ((← func).free - 1)

/-- Puts the value of an expression into a register; jumps out of it end here. -/
def toRegister (e : Operand) (r : Nat) : Asm Operand := do
  let e ← settle e r
  let (e, isTest) :=
    match e.kind with
    | .test pc => ({ e with yes := pc :: e.yes }, true)
    | _ => (e, false)
  if e.hasJumps then
    let mut onFalse := 0
    let mut onTrue := 0
    if (← needValue e.yes) || (← needValue e.no) then
      let around ← if isTest then pure [] else pure [← jump]
      discard mark
      onFalse ← emit (.loadFalseSkip r)
      discard mark
      onTrue ← emit (.loadTrue r)
      patchHere around
    let final ← mark
    direct e.no (some r) final onFalse
    direct e.yes (some r) final onTrue
  return ofKind (.reg r)

def toNext (e : Operand) : Asm Operand := do
  let e ← fetch e
  releaseOperand e
  reserve 1
  toRegister e ((← func).free - 1)

def toAny (e : Operand) : Asm (Operand × Nat) := do
  let e ← fetch e
  let next : Asm (Operand × Nat) := do
    let e ← toNext e
    return (e, (← func).free - 1)
  match e.kind with
  | .reg r =>
    if !e.hasJumps then return (e, r)
    else if r ≥ (← taken) then return (← toRegister e r, r)
    else next
  | _ => next

def toAnyOrUpvalue (e : Operand) : Asm Operand := do
  match e.kind, e.hasJumps with
  | .upvalue _, false => return e
  | _, _ => return (← toAny e).1

def toValue (e : Operand) : Asm Operand := do
  match e.kind, e.hasJumps with
  | .test _, _ | _, true => return (← toAny e).1
  | _, _ => fetch e

/-- The place of an expression among the constants that can be operands. -/
def constant? (e : Operand) : Asm (Option Nat) := do
  if e.hasJumps then return none
  let k? ←
    match e.kind with
    | .nil => some <$> constant .nil
    | .bool b => some <$> constant (.bool b)
    | .number n => some <$> constant (.number n)
    | .text b => some <$> constant (.text b)
    | .const k => pure (some k)
    | _ => pure none
  return k?.filter (· ≤ maxOperand)

def toSource (e : Operand) : Asm (Operand × Source) := do
  match ← constant? e with
  | some k => return ({ e with kind := .const k }, .const k)
  | none =>
    let (e, r) ← toAny e
    return (e, .reg r)

/-! ### Variables and fields -/

def assign (target e : Operand) : Asm Unit := do
  let source (store : Source → Instr) : Asm Unit := do
    let (e, s) ← toSource e
    discard (emit (store s))
    releaseOperand e
  match target.kind with
  | .variableAt r _ =>
    releaseOperand e
    discard (toRegister e r)
  | .upvalue u =>
    let (e, r) ← toAny e
    discard (emit (.setUpvalue r u))
    releaseOperand e
  | .upField u k => source (.setUpField u k)
  | .item t n => source (.setIndex t n)
  | .field t k => source (.setField t k)
  | .element t key => source (.setKey t key)
  | _ => pure ()

def fieldKey? (key : Operand) : Asm (Option Nat) := do
  match key.kind with
  | .const k =>
    match (← func).consts[k]? with
    | some (.text b) =>
      return if !key.hasJumps && k ≤ maxOperand && b.size ≤ 40 then some k else none
    | _ => return none
  | _ => return none

def index (t key : Operand) : Asm Operand := do
  let key ←
    match key.kind with
    | .text b => pure { key with kind := .const (← constant (.text b)) }
    | _ => pure key
  let field? ← fieldKey? key
  match t.kind, field? with
  | .upvalue u, some k => return { t with kind := .upField u k }
  | _, _ =>
    let (t, r) ←
      match t.kind with
      | .upvalue _ => toAny t
      | .variableAt r _ | .reg r => pure (t, r)
      | _ => toAny t
    match field?, key.integer? with
    | some k, _ => return { t with kind := .field r k }
    | none, some n =>
      if 0 ≤ n && n ≤ 255 then return { t with kind := .item r n.toNat }
      return { t with kind := .element r (← toAny key).2 }
    | none, none => return { t with kind := .element r (← toAny key).2 }

def method (e : Operand) (name : String) : Asm Operand := do
  let (e, r) ← toAny e
  releaseOperand e
  let base := (← func).free
  reserve 2
  let (key, source) ← toSource (ofKind (.text name.toUTF8))
  discard (emit (.method base r source))
  releaseOperand key
  return ofKind (.reg base)

/-! ### Conditions -/

def negate (pc : Nat) : Asm Unit := do rework (← control pc) Instr.negated

def jumpOn (e : Operand) (truth : Bool) : Asm Nat := do
  let plain : Asm Nat := do
    let e ← settleAnywhere e
    releaseOperand e
    match e.kind with
    | .reg r => discard (emit (.testSet 0 r truth))
    | _ => pure ()
    jump
  match e.kind with
  | .pending pc =>
    match ← instr pc with
    | .unary .not _ b =>
      drop
      discard (emit (.test b !truth))
      jump
    | _ => plain
  | _ => plain

def ifTrue (e : Operand) : Asm Operand := do
  let e ← fetch e
  let out ←
    match e.kind with
    | .test pc =>
      negate pc
      pure [pc]
    | .const _ | .number _ | .text _ | .bool true => pure []
    | _ => pure [← jumpOn e false]
  patchHere e.yes
  return { e with no := out ++ e.no, yes := [] }

def ifFalse (e : Operand) : Asm Operand := do
  let e ← fetch e
  let out ←
    match e.kind with
    | .test pc => pure [pc]
    | .nil | .bool false => pure []
    | _ => pure [← jumpOn e true]
  patchHere e.no
  return { e with yes := out ++ e.yes, no := [] }

def forgetValues (jumps : List Nat) : Asm Unit :=
  for pc in jumps do discard (retarget pc none)

def not (e : Operand) : Asm Operand := do
  let kind ←
    match e.kind with
    | .nil | .bool false => pure (.bool true)
    | .const _ | .number _ | .text _ | .bool true => pure (.bool false)
    | .test pc =>
      negate pc
      pure e.kind
    | .pending _ | .reg _ =>
      let e ← settleAnywhere e
      releaseOperand e
      match e.kind with
      | .reg r => pure (.pending (← emit (.unary .not 0 r)))
      | _ => pure e.kind
    | _ => pure e.kind
  forgetValues e.no
  forgetValues e.yes
  return { kind, yes := e.no, no := e.yes }

/-! ### Operators -/

/-- The result of an operation on numerals. Results that are no number or zero are left to the
script, and so are failures. -/
def folded? (op : Arith) (e₁ e₂ : Operand) : Option Operand := do
  let a ← e₁.numeral?
  let b ← e₂.numeral?
  let divides := op == .div || op == .idiv || op == .mod
  if divides && b.isZero then none
  else
    match op.apply a b with
    | .ok (.int n) => some { e₁ with kind := .number (.int n) }
    | .ok (.float x) => if x == 0.0 then none else some { e₁ with kind := .number (.float x) }
    | _ => none

def unary (op : Unary) (e : Operand) (line : Nat) : Asm Operand := do
  let e ← fetch e
  let zero := ofKind (.number (.int 0))
  let folded :=
    match op, e.numeral? with
    | .neg, some (.int _) => folded? .sub zero e
    | .neg, some (.float x) =>
      if x == 0.0 then none else some { e with kind := .number (.float (-x)) }
    | .bnot, some _ => folded? .bxor e (ofKind (.number (.int (-1))))
    | _, _ => none
  match folded, op with
  | some e, _ => return e
  | none, .not => not e
  | none, op =>
    let (e, r) ← toAny e
    releaseOperand e
    let pc ← emit (.unary op 0 r)
    onLine line
    return ofKind (.pending pc)

/-- An operation whose second operand is in place; the first one goes into a register. -/
def finishBinary (op : Arith) (e₁ e₂ : Operand) (y : Source) (flip : Bool) (line : Nat) :
    Asm Operand := do
  let (e₁, r) ← toAny e₁
  let x := Source.reg r
  let pc ← emit (if flip then .arith op 0 y x else .arith op 0 x y)
  releaseOperands e₁ e₂
  onLine line
  return ofKind (.pending pc)

def plainBinary (op : Arith) (e₁ e₂ : Operand) (line : Nat) : Asm Operand := do
  let (e₂, r) ← toAny e₂
  finishBinary op e₁ e₂ (.reg r) false line

def constBinary (op : Arith) (e₁ e₂ : Operand) (flip : Bool) (line : Nat) : Asm Operand := do
  let k? ← if e₂.numeral?.isSome then constant? e₂ else pure none
  match k? with
  | some k => finishBinary op e₁ { e₂ with kind := .const k } (.const k) flip line
  | none => if flip then plainBinary op e₂ e₁ line else plainBinary op e₁ e₂ line

def shortBinary (op : Arith) (e₁ e₂ : Operand) (n : Int) (flip : Bool) (line : Nat) :
    Asm Operand :=
  finishBinary op e₁ e₂ (.number (.int n)) flip line

def arith (op : Arith) (e₁ e₂ : Operand) (line : Nat) : Asm Operand := do
  -- An integer whose opposite is small, too.
  let opposite? := e₂.shortInteger?.filter fun n => Operand.isShort (-n)
  match op with
  | .add | .mul =>
    let flip := e₁.numeral?.isSome
    let (e₁, e₂) := if flip then (e₂, e₁) else (e₁, e₂)
    match op, e₂.shortInteger? with
    | .add, some n => shortBinary op e₁ e₂ n flip line
    | _, _ => constBinary op e₁ e₂ flip line
  | .sub =>
    match opposite? with
    | some n => shortBinary op e₁ e₂ n false line
    | none => constBinary op e₁ e₂ false line
  | .band | .bor | .bxor =>
    let flip := match e₁.kind with
      | .number (.int _) => true
      | _ => false
    let (e₁, e₂) := if flip then (e₂, e₁) else (e₁, e₂)
    match e₂.integer? with
    | some _ => constBinary op e₁ e₂ flip line
    | none => if flip then plainBinary op e₂ e₁ line else plainBinary op e₁ e₂ line
  | .shl =>
    match e₁.shortInteger?, opposite? with
    | some n, _ => shortBinary op e₂ e₁ n true line
    | none, some n => shortBinary op e₁ e₂ n false line
    | none, none => plainBinary op e₁ e₂ line
  | .shr =>
    match e₂.shortInteger? with
    | some n => shortBinary op e₁ e₂ n false line
    | none => plainBinary op e₁ e₂ line
  | op => constBinary op e₁ e₂ false line

def order (compare : Source → Source → Bool → Instr) (e₁ e₂ : Operand) : Asm Operand := do
  let (e₁, e₂, x, y) ←
    match e₁.shortNumber?, e₂.shortNumber? with
    | _, some n =>
      let (e₁, r) ← toAny e₁
      pure (e₁, e₂, Source.reg r, Source.number n)
    | some n, none =>
      let (e₂, r) ← toAny e₂
      pure (e₁, e₂, Source.number n, Source.reg r)
    | none, none =>
      let (e₁, r₁) ← toAny e₁
      let (e₂, r₂) ← toAny e₂
      pure (e₁, e₂, Source.reg r₁, Source.reg r₂)
  releaseOperands e₁ e₂
  discard (emit (compare x y true))
  return ofKind (.test (← jump))

def equality (e₁ e₂ : Operand) (outcome : Bool) : Asm Operand := do
  let (e₁, e₂) :=
    match e₁.kind with
    | .reg _ => (e₁, e₂)
    | _ => (e₂, e₁)
  let (e₁, r) ← toAny e₁
  let (e₂, y) ←
    match e₂.shortNumber? with
    | some n => pure (e₂, Source.number n)
    | none => toSource e₂
  releaseOperands e₁ e₂
  discard (emit (.equal r y outcome))
  return ofKind (.test (← jump))

/-- Joins a string in front to the one behind it, or to all those that the last instruction
joins. -/
def concat (e₁ e₂ : Operand) (line : Nat) : Asm Unit := do
  match e₁.kind, ← last? with
  | .reg r, some (.concat _ count) =>
    releaseOperand e₂
    rework ((← here) - 1) fun _ => .concat r (count + 1)
  | .reg r, _ =>
    discard (emit (.concat r 2))
    releaseOperand e₂
    onLine line
  | _, _ => pure ()

def before (op : Binary) (e : Operand) : Asm Operand := do
  let e ← fetch e
  match op with
  | .and => ifTrue e
  | .or => ifFalse e
  | .concat => toNext e
  | .arith _ => if e.numeral?.isSome then return e else return (← toAny e).1
  | .equal | .unequal => if e.numeral?.isSome then return e else return (← toSource e).1
  | _ => if e.shortNumber?.isSome then return e else return (← toAny e).1

def binary (op : Binary) (e₁ e₂ : Operand) (line : Nat) : Asm Operand := do
  let e₂ ← fetch e₂
  match op with
  | .and => return { e₂ with no := e₁.no ++ e₂.no }
  | .or => return { e₂ with yes := e₁.yes ++ e₂.yes }
  | .concat =>
    let e₂ ← toNext e₂
    concat e₁ e₂ line
    return e₁
  | .arith op =>
    match folded? op e₁ e₂ with
    | some e => return e
    | none => arith op e₁ e₂ line
  | .less => order .less e₁ e₂
  | .lessEq => order .lessEq e₁ e₂
  | .greater => order .less e₂ e₁
  | .greaterEq => order .lessEq e₂ e₁
  | .equal => equality e₁ e₂ true
  | .unequal => equality e₁ e₂ false

end Asm

end Lamina.Script
