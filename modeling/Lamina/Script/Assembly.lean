import Lamina.Script.Code
import Lamina.Script.Token

/-! Functions of scripts while their code is written: the tokens ahead, instructions and their
lines, constants, registers and jumps. -/

namespace Lamina.Script

/-- Why a script cannot be compiled. -/
inductive CompileFault
  | grammar (line : Nat) (message : String)
  | depth

inductive VariableKind
  | regular
  /-- Nothing may be assigned to the variable, -/
  | constant
  /-- and its value is closed when it goes out of scope. -/
  | closing
  /-- The value is known, and the variable needs no register. -/
  | known (v : Value)

structure Variable where
  name : String
  kind : VariableKind := .regular
  register : Nat := 0
  /-- The place among the locals of the function. -/
  slot : Nat := 0

namespace Variable

def known? (v : Variable) : Option Value :=
  match v.kind with
  | .known value => some value
  | _ => none

def isReadOnly (v : Variable) : Bool :=
  match v.kind with
  | .regular => false
  | _ => true

end Variable

structure Block where
  /-- The variables, labels and pending jumps before the block. -/
  active : Nat
  firstLabel : Nat
  firstGoto : Nat
  isLoop : Bool
  /-- Whether upvalues have to be closed at the end. -/
  captured : Bool := false
  /-- Whether a value is closed at the end of this block or one around it. -/
  closing : Bool := false

/-- A label, or jumps to a label that has not been seen. -/
structure Label where
  name : String
  line : Nat
  /-- The number of variables that are visible. -/
  active : Nat
  target : Nat := 0
  jumps : List Nat := []
  /-- Whether the jumps leave the scope of captured variables. -/
  close : Bool := false

/-- A function under construction. -/
structure Func where
  line : Nat := 0
  code : Array Instr := #[]
  lines : Array Nat := #[]
  consts : Array Value := #[]
  /-- Where the constants are, by their keys. -/
  places : List (ByteArray × Nat) := []
  protos : Array Proto := #[]
  captures : Array Capture := #[]
  locals : Array Local := #[]
  params : Nat := 0
  vararg : Bool := false
  /-- The first free register, and the number of registers. -/
  free : Nat := 0
  size : Nat := 2
  target : Nat := 0
  blocks : List Block := []
  firstVariable : Nat := 0
  firstLabel : Nat := 0
  /-- The number of variables that are visible. -/
  active : Nat := 0

def Func.proto (f : Func) : Proto :=
  .mk f.code f.lines f.consts f.protos f.captures f.locals f.params f.size f.vararg

structure Assembly where
  token : Token := ⟨.finish, 1⟩
  ahead? : Option Token := none
  rest : List Token
  budget : Nat
  /-- The lines of the last token seen and of the last token passed. -/
  line : Nat := 1
  lastLine : Nat := 1
  /-- How deeply statements and expressions are nested. -/
  depth : Nat := 0
  func : Func := {}
  /-- The functions around, the inner ones first. -/
  outer : List Func := []
  vars : Array Variable := #[]
  gotos : Array Label := #[]
  labels : Array Label := #[]

abbrev Asm := EStateM CompileFault Assembly

namespace Asm

def maxDepth : Nat := 200

def maxRegisters : Nat := 255

def maxOperand : Nat := 255

/-! ### Tokens -/

def refuse {α : Type} (message : String) : Asm α := do
  throw (.grammar (← get).line message)

def fail {α : Type} (message : String) : Asm α := do
  refuse (message ++ " near " ++ (← get).token.lexeme.shown)

def read : Asm Token := do
  match (← get).rest with
  | [] => return ⟨.finish, (← get).line⟩
  | token :: rest =>
    modify fun s => { s with rest, line := token.line }
    match token.lexeme with
    | .bad message => refuse message
    | _ => return token

def advance : Asm Unit := do
  modify fun s => { s with lastLine := s.line }
  match (← get).ahead? with
  | some token => modify fun s => { s with token, ahead? := none }
  | none =>
    let token ← read
    modify fun s => { s with token }

def peek : Asm Lexeme := do
  let token ← read
  modify fun s => { s with ahead? := some token }
  return token.lexeme

def line : Asm Nat := return (← get).line

def lexeme : Asm Lexeme := return (← get).token.lexeme

def isKeyword (word : String) : Asm Bool := do
  match ← lexeme with
  | .keyword w => return w == word
  | _ => return false

def isSymbol (symbol : String) : Asm Bool := do
  match ← lexeme with
  | .symbol s => return s == symbol
  | _ => return false

def skipSymbol (symbol : String) : Asm Bool := do
  if ← isSymbol symbol then
    advance
    return true
  return false

def skipKeyword (word : String) : Asm Bool := do
  if ← isKeyword word then
    advance
    return true
  return false

def expected {α : Type} (what : String) : Asm α := fail ("'" ++ what ++ "' expected")

def takeSymbol (symbol : String) : Asm Unit := do
  unless ← skipSymbol symbol do expected symbol

def takeKeyword (word : String) : Asm Unit := do
  unless ← skipKeyword word do expected word

def close (skip : String → Asm Bool) (what opener : String) (opened : Nat) : Asm Unit := do
  unless ← skip what do
    if (← line) == opened then expected what
    else fail s!"'{what}' expected (to close '{opener}' at line {opened})"

def takeName : Asm String := do
  match ← lexeme with
  | .name s =>
    advance
    return s
  | _ => fail "<name> expected"

def deeper : Asm Unit := do
  modify fun s => { s with depth := s.depth + 1 }
  if (← get).depth ≥ maxDepth then throw .depth

def shallower (levels : Nat) : Asm Unit := modify fun s => { s with depth := s.depth - levels }

/-! ### Instructions -/

def func : Asm Func := return (← get).func

def onFunc (f : Func → Func) : Asm Unit := modify fun s => { s with func := f s.func }

def here : Asm Nat := return (← get).func.code.size

def emit (i : Instr) : Asm Nat :=
  modifyGet fun s =>
    (s.func.code.size, { s with func := { s.func with
      code := s.func.code.push i, lines := s.func.lines.push s.lastLine } })

def onLine (n : Nat) : Asm Unit :=
  onFunc fun f => { f with lines := f.lines.pop.push n }

def drop : Asm Unit := onFunc fun f => { f with code := f.code.pop, lines := f.lines.pop }

def instr (pc : Nat) : Asm Instr := return (← get).func.code[pc]?.getD default

def rework (pc : Nat) (change : Instr → Instr) : Asm Unit :=
  onFunc fun f => { f with code := f.code.modify pc change }

def last? : Asm (Option Instr) := do
  let f ← func
  return if f.target < f.code.size then f.code.back? else none

/-! ### Constants -/

def constKey : Value → ByteArray
  | .text b => "s".toUTF8 ++ b
  | .number (.float x) => s!"f{x.toBits}".toUTF8
  | .number n => n.text.toUTF8
  | .bool b => (if b then "true" else "false").toUTF8
  | _ => "nil".toUTF8

def constant (v : Value) : Asm Nat := do
  let key := constKey v
  match (← func).places.lookup key with
  | some k => return k
  | none =>
    modifyGet fun s =>
      let k := s.func.consts.size
      (k, { s with func := { s.func with
        consts := s.func.consts.push v, places := (key, k) :: s.func.places } })

/-! ### Registers -/

def reserve (count : Nat) : Asm Unit := do
  let top := (← func).free + count
  if top > (← func).size then
    if top ≥ maxRegisters then fail "function or expression needs too many registers"
    onFunc fun f => { f with size := top }
  onFunc fun f => { f with free := f.free + count }

def setFree (r : Nat) : Asm Unit := onFunc fun f => { f with free := r }

def ensure (count : Nat) : Asm Unit := do
  let free := (← func).free
  reserve count
  setFree free

def localAt? (i : Nat) : Asm (Option Variable) := do
  let s ← get
  return s.vars[s.func.firstVariable + i]?

/-- The number of registers that the first variables of a function take. -/
def registersOf (vars : Array Variable) (first : Nat) : Nat → Nat
  | 0 => 0
  | n + 1 =>
    match vars[first + n]? with
    | some v => if v.known?.isSome then registersOf vars first n else v.register + 1
    | none => 0

def registersFor (count : Nat) : Asm Nat := do
  let s ← get
  return registersOf s.vars s.func.firstVariable count

def taken : Asm Nat := do registersFor (← func).active

def release (r : Nat) : Asm Unit := do
  if r ≥ (← taken) then onFunc fun f => { f with free := f.free - 1 }

/-- Sets registers to `nil`, if possible together with those that the last instruction sets. -/
def loadNil (first count : Nat) : Asm Unit := do
  match ← last? with
  | some (.loadNil start n) =>
    if (start ≤ first && first ≤ start + n) || (first ≤ start && start ≤ first + count) then
      let a := min first start
      rework ((← here) - 1) fun _ => .loadNil a (max (first + count) (start + n) - a)
    else discard (emit (.loadNil first count))
  | _ => discard (emit (.loadNil first count))

/-! ### Jumps -/

def jump : Asm Nat := emit (.jump 0)

def mark : Asm Nat := do
  let pc ← here
  onFunc fun f => { f with target := pc }
  return pc

def control (pc : Nat) : Asm Nat := do
  if pc ≥ 1 && (← instr (pc - 1)).isTest then return pc - 1 else return pc

/-- Lets a test that keeps its value keep it in a register, or not at all. Other tests do not
change. -/
def retarget (pc : Nat) (register? : Option Nat) : Asm Bool := do
  let place ← control pc
  match ← instr place with
  | .testSet _ b k =>
    match register?.filter (· != b) with
    | some r => rework place fun _ => .testSet r b k
    | none => rework place fun _ => .test b k
    return true
  | _ => return false

/-- Directs jumps: those that keep a value in a register to one target, the others to another. -/
def direct (jumps : List Nat) (register? : Option Nat) (keeping other : Nat) : Asm Unit :=
  for pc in jumps do
    let target := if ← retarget pc register? then keeping else other
    rework pc (·.toward target)

def patch (jumps : List Nat) (target : Nat) : Asm Unit := direct jumps none target target

def patchHere (jumps : List Nat) : Asm Unit := do patch jumps (← mark)

def needValue : List Nat → Asm Bool
  | [] => return false
  | pc :: rest => do
    match ← instr (← control pc) with
    | .testSet .. => needValue rest
    | _ => return true

end Asm

end Lamina.Script
