import Lamina.Script.Operand

/-! Scopes: the variables of a script and the functions that share them, blocks, and jumps to
labels. -/

namespace Lamina.Script.Asm

def maxVariables : Nat := 200

def maxCaptures : Nat := 255

def overLimit {α : Type} (f : Func) (count : Nat) (what : String) : Asm α :=
  let place := if f.line = 0 then "main function" else s!"function at line {f.line}"
  fail s!"too many {what} (limit is {count}) in {place}"

/-! ### Variables -/

/-- A new variable, which is not visible yet; its place among those of the function. -/
def declare (name : String) : Asm Nat := do
  let s ← get
  let i := s.vars.size - s.func.firstVariable
  if i + 1 > maxVariables then overLimit s.func maxVariables "local variables"
  modify fun s => { s with vars := s.vars.push { name } }
  return i

def setKind (i : Nat) (kind : VariableKind) : Asm Unit :=
  modify fun s => { s with
    vars := s.vars.modify (s.func.firstVariable + i) fun v => { v with kind } }

def activate : Asm Unit := do
  let r ← taken
  let f ← func
  let slot := f.locals.size
  let name := ((← localAt? f.active).map (·.name)).getD ""
  modify fun s => { s with
    vars := s.vars.modify (f.firstVariable + f.active) fun v =>
      { v with register := r, slot }
    func := { s.func with
      active := s.func.active + 1
      locals := s.func.locals.push ⟨name, s.func.code.size, 0⟩ } }

def activateMany (count : Nat) : Asm Unit :=
  for _ in [0:count] do activate

def activateKnown : Asm Unit := onFunc fun f => { f with active := f.active + 1 }

def deactivate (count : Nat) : Asm Unit := do
  let f ← func
  let pc ← here
  for i in [count:f.active] do
    match ← localAt? i with
    | some v =>
      if v.known?.isNone then
        onFunc fun f => { f with locals := f.locals.modify v.slot fun l => { l with stop := pc } }
    | none => pure ()
  modify fun s => { s with
    vars := s.vars.extract 0 (f.firstVariable + count)
    func := { s.func with active := count } }

def search (vars : Array Variable) (first : Nat) (name : String) :
    Nat → Option (Nat × Variable)
  | 0 => none
  | n + 1 =>
    match vars[first + n]? with
    | some v => if v.name == name then some (n, v) else search vars first name n
    | none => none

def capture (i : Nat) : List Block → List Block
  | [] => []
  | b :: rest =>
    if b.active > i then b :: capture i rest else { b with captured := true } :: rest

/-- What a name means in the first of functions, each inside the next one: nothing, or a variable
or upvalue. The functions on the way to a variable capture it; one of them may have too many. -/
def resolve (vars : Array Variable) (name : String) (inner : Bool) :
    List Func → Except Func (Option (OperandKind × Bool) × List Func)
  | [] => .ok (none, [])
  | f :: outer =>
    match search vars f.firstVariable name f.active with
    | some (i, v) =>
      match v.known? with
      | some value => .ok (some (.known value name, true), f :: outer)
      | none =>
        let f := if inner then f else { f with blocks := capture i f.blocks }
        .ok (some (.variableAt v.register i, v.isReadOnly), f :: outer)
    | none =>
      match f.captures.findIdx? (·.name == name) with
      | some u => .ok (some (.upvalue u, (f.captures[u]?.map (·.readOnly)).getD false), f :: outer)
      | none => do
        let (found, outer) ← resolve vars name false outer
        let add (inRegister : Bool) (index : Nat) (readOnly : Bool) :
            Except Func (Option (OperandKind × Bool) × List Func) :=
          if f.captures.size + 1 > maxCaptures then .error f
          else
            let captures := f.captures.push ⟨name, inRegister, index, readOnly⟩
            .ok (some (.upvalue f.captures.size, readOnly), { f with captures } :: outer)
        match found with
        | some (.variableAt r _, readOnly) => add true r readOnly
        | some (.upvalue u, readOnly) => add false u readOnly
        | found => .ok (found, f :: outer)

def lookup (name : String) : Asm (Option OperandKind) := do
  let s ← get
  match resolve s.vars name true (s.func :: s.outer) with
  | .error f => overLimit f maxCaptures "upvalues"
  | .ok (found, func :: outer) =>
    set { s with func, outer }
    return found.map (·.1)
  | .ok (_, []) => return none

def named (name : String) : Asm Operand := do
  match ← lookup name with
  | some kind => return ofKind kind
  | none =>
    let environment := ofKind ((← lookup "_ENV").getD .void)
    index (← toAnyOrUpvalue environment) (ofKind (.text name.toUTF8))

def checkWritable (e : Operand) : Asm Unit := do
  let name? ←
    match e.kind with
    | .known _ name => pure (some name)
    | .variableAt _ i => pure (((← localAt? i).filter (·.isReadOnly)).map (·.name))
    | .upvalue u => pure (((← func).captures[u]?.filter (·.readOnly)).map (·.name))
    | _ => pure none
  match name? with
  | some name => refuse s!"attempt to assign to const variable '{name}'"
  | none => pure ()

/-! ### Labels -/

def addGoto (name : String) (line : Nat) (jumps : List Nat) : Asm Unit := do
  let active := (← func).active
  modify fun s => { s with gotos := s.gotos.push { name, line, active, jumps } }

def label? (name : String) : Asm (Option Label) := do
  let s ← get
  return (s.labels.toList.drop s.func.firstLabel).find? (·.name == name)

def firstGoto : Asm Nat := return ((← func).blocks.head?.map (·.firstGoto)).getD 0

/-- Directs the pending jumps of the block to a label; whether one of them leaves the scope of
captured variables. -/
def solve (label : Label) : Asm Bool := do
  let first ← firstGoto
  let all := (← get).gotos.toList
  let isSolved (g : Label) : Bool := g.name == label.name
  let solved := (all.drop first).filter isSolved
  modify fun s => { s with
    gotos := (all.take first ++ (all.drop first).filter fun g => !isSolved g).toArray }
  for g in solved do
    if g.active < label.active then
      let name := ((← localAt? g.active).map (·.name)).getD ""
      refuse s!"<goto {g.name}> at line {g.line} jumps into the scope of local '{name}'"
    patch g.jumps label.target
  return solved.any (·.close)

/-- Puts a label here; at the end of a block its variables are out of scope. Whether captured
variables had to be closed. -/
def putLabel (name : String) (line : Nat) (atEnd : Bool) : Asm Bool := do
  let target ← mark
  let f ← func
  let active := if atEnd then (f.blocks.head?.map (·.active)).getD 0 else f.active
  let label : Label := { name, line, active, target }
  modify fun s => { s with labels := s.labels.push label }
  if ← solve label then
    discard (emit (.close (← taken)))
    return true
  return false

/-! ### Blocks -/

def enterBlock (isLoop : Bool) : Asm Unit :=
  modify fun s => { s with func := { s.func with blocks :=
    { active := s.func.active
      firstLabel := s.labels.size
      firstGoto := s.gotos.size
      isLoop
      closing := (s.func.blocks.head?.map (·.closing)).getD false } :: s.func.blocks } }

def markClosing : Asm Unit :=
  onFunc fun f => { f with blocks :=
    match f.blocks with
    | b :: rest => { b with captured := true, closing := true } :: rest
    | [] => [] }

def moveGotos (b : Block) : Asm Unit := do
  let outside ← registersFor b.active
  let s ← get
  let first := s.func.firstVariable
  let move (g : Label) : Label :=
    { g with
      close := g.close || (registersOf s.vars first g.active > outside && b.captured)
      active := b.active }
  set { s with gotos := s.gotos.mapIdx fun i g => if i < b.firstGoto then g else move g }

def leaveBlock : Asm Unit := do
  match (← func).blocks with
  | [] => pure ()
  | b :: outer =>
    let level ← registersFor b.active
    -- What jumps leave is judged while the variables are still known.
    let before := (← get).vars
    deactivate b.active
    let closed ← if b.isLoop then putLabel "break" 0 false else pure false
    if !closed && !outer.isEmpty && b.captured then discard (emit (.close level))
    setFree level
    modify fun s => { s with
      labels := s.labels.extract 0 b.firstLabel
      func := { s.func with blocks := outer } }
    if outer.isEmpty then
      match (← get).gotos[b.firstGoto]? with
      | none => pure ()
      | some g =>
        if g.name == "break" then refuse s!"break outside a loop at line {g.line}"
        else refuse s!"no visible label '{g.name}' for <goto> at line {g.line}"
    else
      let after := (← get).vars
      modify fun s => { s with vars := before }
      moveGotos b
      modify fun s => { s with vars := after }

/-! ### Functions -/

def openFunc (line : Nat) : Asm Unit := do
  modify fun s => { s with
    outer := s.func :: s.outer
    func := { line, firstVariable := s.vars.size, firstLabel := s.labels.size } }
  enterBlock false

def closeFunc : Asm Proto := do
  discard (emit (.give (← taken) (some 0)))
  leaveBlock
  let proto := (← func).proto
  match (← get).outer with
  | f :: outer => modify fun s => { s with func := { f with protos := f.protos.push proto }, outer }
  | [] => pure ()
  return proto

end Lamina.Script.Asm
