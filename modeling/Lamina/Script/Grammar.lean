import Lamina.Script.Scope

/-! The grammar of scripts. Code is written while the tokens are read, in one pass. -/

namespace Lamina.Script

/-- The parts of the grammar that contain each other. -/
structure Grammar where
  /-- An expression up to an operator that binds no tighter than a limit, and that operator. -/
  expression : Nat → Asm (Operand × Option Binary)
  statement : Asm Unit
  /-- The statements up to the end of a block. -/
  statements : Asm Unit

namespace Grammar

open Asm

def unaryOf? : Lexeme → Option Unary
  | .keyword "not" => some .not
  | .symbol "-" => some .neg
  | .symbol "~" => some .bnot
  | .symbol "#" => some .len
  | _ => none

def binaryOf? : Lexeme → Option Binary
  | .keyword "and" => some .and
  | .keyword "or" => some .or
  | .symbol "+" => some (.arith .add)
  | .symbol "-" => some (.arith .sub)
  | .symbol "*" => some (.arith .mul)
  | .symbol "%" => some (.arith .mod)
  | .symbol "^" => some (.arith .pow)
  | .symbol "/" => some (.arith .div)
  | .symbol "//" => some (.arith .idiv)
  | .symbol "&" => some (.arith .band)
  | .symbol "|" => some (.arith .bor)
  | .symbol "~" => some (.arith .bxor)
  | .symbol "<<" => some (.arith .shl)
  | .symbol ">>" => some (.arith .shr)
  | .symbol ".." => some .concat
  | .symbol "==" => some .equal
  | .symbol "~=" => some .unequal
  | .symbol "<" => some .less
  | .symbol "<=" => some .lessEq
  | .symbol ">" => some .greater
  | .symbol ">=" => some .greaterEq
  | _ => none

def binding : Binary → Nat × Nat
  | .or => (1, 1)
  | .and => (2, 2)
  | .equal | .unequal | .less | .lessEq | .greater | .greaterEq => (3, 3)
  | .concat => (9, 8)
  | .arith op =>
    match op with
    | .bor => (4, 4)
    | .bxor => (5, 5)
    | .band => (6, 6)
    | .shl | .shr => (7, 7)
    | .add | .sub => (10, 10)
    | .mul | .div | .idiv | .mod => (11, 11)
    | .pow => (14, 13)

def unaryBinding : Nat := 12

def atEnd (withUntil : Bool) : Asm Bool := do
  match ← lexeme with
  | .keyword "else" | .keyword "elseif" | .keyword "end" | .finish => return true
  | .keyword "until" => return withUntil
  | _ => return false

def skipSeparator : Asm Bool := do
  if ← skipSymbol "," then return true
  skipSymbol ";"

/-! ### Expressions -/

section Expressions

variable (g : Grammar)

def one : Asm Operand := return (← g.expression 0).1

def several : Asm (Nat × Operand) := do
  let mut e ← g.one
  let mut count := 1
  for _ in [0:(← get).budget] do
    unless ← skipSymbol "," do break
    discard (toNext e)
    e ← g.one
    count := count + 1
  return (count, e)

def fieldOf (e : Operand) : Asm Operand := do
  let t ← toAnyOrUpvalue e
  advance
  index t (ofKind (.text (← takeName).toUTF8))

def subscript : Asm Operand := do
  advance
  let e ← toValue (← g.one)
  takeSymbol "]"
  return e

def keyedField (t : Nat) : Asm Unit := do
  let free := (← func).free
  let key ←
    match ← lexeme with
    | .name s =>
      advance
      pure (ofKind (.text s.toUTF8))
    | _ => g.subscript
  takeSymbol "="
  let target ← index (ofKind (.reg t)) key
  assign target (← g.one)
  setFree free

def itemsPerStore : Nat := 50

def storeItems (t : Nat) (count? : Option Nat) (start : Nat) : Asm Unit := do
  discard (emit (.setItems t count? start))
  setFree (t + 1)

def isKeyed : Asm Bool := do
  match ← lexeme with
  | .name _ =>
    match ← peek with
    | .symbol "=" => return true
    | _ => return false
  | .symbol "[" => return true
  | _ => return false

def constructor : Asm Operand := do
  let opened ← line
  let pc ← emit (.newTable 0 0 0)
  let t := (← func).free
  reserve 1
  takeSymbol "\x7b"
  let mut stored := 0
  let mut waiting := 0
  let mut fields := 0
  let mut last? : Option Operand := none
  for _ in [0:(← get).budget] do
    if ← isSymbol "\x7d" then break
    if let some e := last? then
      discard (toNext e)
      last? := none
      if waiting == itemsPerStore then
        storeItems t (some waiting) stored
        stored := stored + waiting
        waiting := 0
    if ← isKeyed then
      g.keyedField t
      fields := fields + 1
    else
      last? := some (← g.one)
      waiting := waiting + 1
    unless ← skipSeparator do break
  close skipSymbol "\x7d" "\x7b" opened
  if waiting != 0 then
    match last? with
    | some e =>
      if e.isOpen then
        setResults e none
        storeItems t none stored
        waiting := waiting - 1
      else
        discard (toNext e)
        storeItems t (some waiting) stored
    | none => storeItems t (some waiting) stored
  let items := stored + waiting
  let keyed := fields
  rework pc fun _ => .newTable t items keyed
  return ofKind (.reg t)

def arguments (f : Operand) : Asm Operand := do
  let opened ← line
  let last? ←
    match ← lexeme with
    | .symbol "(" =>
      advance
      let last? ←
        if ← isSymbol ")" then pure none
        else
          let (_, e) ← g.several
          if e.isOpen then setResults e none
          pure (some e)
      close skipSymbol ")" "(" opened
      pure last?
    | .symbol "\x7b" => some <$> g.constructor
    | .text b =>
      advance
      pure (some (ofKind (.text b)))
    | _ => fail "function arguments expected"
  let base :=
    match f.kind with
    | .reg r => r
    | _ => 0
  let isOpen := (last?.map Operand.isOpen).getD false
  unless isOpen do
    if let some e := last? then discard (toNext e)
  let count := (← func).free - (base + 1)
  let pc ← emit (.call base (if isOpen then none else some count) (some 1))
  onLine opened
  setFree (base + 1)
  return ofKind (.call pc)

def parameters : Asm Unit := do
  let mut count := 0
  let mut vararg := false
  unless ← isSymbol ")" do
    for _ in [0:(← get).budget] do
      match ← lexeme with
      | .name s =>
        advance
        discard (declare s)
        count := count + 1
      | .symbol "..." =>
        advance
        vararg := true
      | _ => fail "<name> or '...' expected"
      if vararg then break
      unless ← skipSymbol "," do break
  activateMany count
  onFunc fun f => { f with params := f.active }
  if vararg then
    onFunc fun f => { f with vararg := true }
    discard (emit .varargPrep)
  reserve (← func).active

def body (isMethod : Bool) (opened : Nat) : Asm Operand := do
  openFunc opened
  takeSymbol "("
  if isMethod then
    discard (declare "self")
    activate
  parameters
  takeSymbol ")"
  g.statements
  close skipKeyword "end" "function" opened
  discard closeFunc
  let p := (← func).protos.size - 1
  toNext (ofKind (.pending (← emit (.closure 0 p))))

def primary : Asm Operand := do
  match ← lexeme with
  | .name s =>
    advance
    named s
  | .symbol "(" =>
    let opened ← line
    advance
    let e ← g.one
    close skipSymbol ")" "(" opened
    fetch e
  | _ => fail "unexpected symbol"

def suffixed : Asm Operand := do
  let mut e ← g.primary
  for _ in [0:(← get).budget] do
    match ← lexeme with
    | .symbol "." => e ← fieldOf e
    | .symbol "[" =>
      let t ← toAnyOrUpvalue e
      e ← index t (← g.subscript)
    | .symbol ":" =>
      advance
      let name ← takeName
      e ← g.arguments (← method e name)
    | .symbol "(" | .symbol "\x7b" | .text _ => e ← g.arguments (← toNext e)
    | _ => break
  return e

def simple : Asm Operand := do
  let literal (kind : OperandKind) : Asm Operand := do
    advance
    return ofKind kind
  match ← lexeme with
  | .number n => literal (.number n)
  | .text b => literal (.text b)
  | .keyword "nil" => literal .nil
  | .keyword "true" => literal (.bool true)
  | .keyword "false" => literal (.bool false)
  | .symbol "..." =>
    unless (← func).vararg do fail "cannot use '...' outside a vararg function"
    let pc ← emit (.vararg 0 (some 0))
    literal (.vararg pc)
  | .symbol "\x7b" => g.constructor
  | .keyword "function" =>
    advance
    g.body false (← line)
  | _ => g.suffixed

def operation (limit : Nat) : Asm (Operand × Option Binary) := do
  deeper
  let mut e ←
    match unaryOf? (← lexeme) with
    | some op =>
      let row ← line
      advance
      let (e, _) ← g.expression unaryBinding
      unary op e row
    | none => g.simple
  let mut op? := binaryOf? (← lexeme)
  for _ in [0:(← get).budget] do
    match op? with
    | none => break
    | some op =>
      if (binding op).1 ≤ limit then break
      let row ← line
      advance
      e ← before op e
      let (e₂, next?) ← g.expression (binding op).2
      e ← binary op e e₂ row
      op? := next?
  shallower 1
  return (e, op?)

end Expressions

/-! ### Statements -/

section Statements

variable (g : Grammar)

def block : Asm Unit := do
  enterBlock false
  g.statements
  leaveBlock

/-- Makes the values of expressions as many as there are targets; the last expression is not in a
register yet. -/
def adjust (targets count : Nat) (last? : Option Operand) : Asm Unit := do
  let missing := targets - count
  match last? with
  | some e =>
    if e.isOpen then setResults e (some (targets + 1 - count))
    else
      discard (toNext e)
      if missing > 0 then loadNil (← func).free missing
  | none => if missing > 0 then loadNil (← func).free missing
  if missing > 0 then reserve missing
  else setFree ((← func).free - (count - targets))

/-- Copies a variable that is a target behind others, if they depend on it. -/
def protect (targets : List Operand) (v : Operand) : Asm (List Operand) := do
  let copy := (← func).free
  let swap (r s : Nat) : Nat := if s == r then copy else s
  let (depends, change) : (OperandKind → Bool) × (OperandKind → OperandKind) :=
    match v.kind with
    | .variableAt r _ =>
      (fun
        | .element t key => t == r || key == r
        | .item t _ | .field t _ => t == r
        | _ => false,
      fun
        | .element t key => .element (swap r t) (swap r key)
        | .item t n => .item (swap r t) n
        | .field t k => .field (swap r t) k
        | kind => kind)
    | .upvalue u =>
      (fun
        | .upField w _ => w == u
        | _ => false,
      fun
        | .upField w k => if w == u then .field copy k else .upField w k
        | kind => kind)
    | _ => (fun _ => false, id)
  if targets.any (depends ·.kind) then
    match v.kind with
    | .variableAt r _ => discard (emit (.move copy r))
    | .upvalue u => discard (emit (.getUpvalue copy u))
    | _ => pure ()
    reserve 1
    return targets.map fun t => { t with kind := change t.kind }
  return targets

def assignment (first : Operand) : Asm Unit := do
  let mut targets := [first]
  for _ in [0:(← get).budget] do
    unless (targets.head?.map Operand.isTarget).getD false do fail "syntax error"
    checkWritable (targets.headD default)
    unless ← skipSymbol "," do break
    let v ← g.suffixed
    unless v.isIndexed do targets ← protect targets v
    targets := v :: targets
    deeper
  takeSymbol "="
  let (count, e) ← g.several
  let mut rest := targets
  if count == targets.length then
    let e ← single e
    assign (targets.headD default) e
    rest := targets.tail
  else adjust targets.length count (some e)
  for t in rest do
    assign t (ofKind (.reg ((← func).free - 1)))
  shallower (targets.length - 1)

def expressionStatement : Asm Unit := do
  let e ← g.suffixed
  if ← isSymbol "=" then g.assignment e
  else if ← isSymbol "," then g.assignment e
  else
    match e.kind with
    | .call _ => setResults e (some 0)
    | _ => fail "syntax error"

def condition : Asm (List Nat) := do
  let e ← g.one
  let e :=
    match e.kind with
    | .nil => { e with kind := .bool false }
    | _ => e
  return (← ifTrue e).no

def whileLoop (opened : Nat) : Asm Unit := do
  advance
  let start ← mark
  let out ← g.condition
  enterBlock true
  takeKeyword "do"
  g.block
  patch [← jump] start
  close skipKeyword "end" "while" opened
  leaveBlock
  patchHere out

def repeatLoop (opened : Nat) : Asm Unit := do
  let start ← mark
  enterBlock true
  enterBlock false
  advance
  g.statements
  close skipKeyword "until" "repeat" opened
  let mut again ← g.condition
  let inner? := (← func).blocks.head?
  leaveBlock
  if let some inner := inner? then
    if inner.captured then
      let out ← jump
      patchHere again
      discard (emit (.close (← registersFor inner.active)))
      again := [← jump]
      patchHere [out]
  patch again start
  leaveBlock

def loopBody (base opened count : Nat) (isGeneric : Bool) : Asm Unit := do
  takeKeyword "do"
  let prep ← emit (if isGeneric then .iterPrep base 0 else .rangePrep base 0)
  enterBlock false
  activateMany count
  reserve count
  g.block
  leaveBlock
  let target ← mark
  rework prep (·.toward target)
  if isGeneric then
    discard (emit (.iterCall base count))
    onLine opened
  discard (emit (if isGeneric then .iterLoop base (prep + 1) else .rangeLoop base (prep + 1)))
  onLine opened

def declareHidden (count : Nat) : Asm Unit :=
  for _ in [0:count] do discard (declare "(for state)")

def range (name : String) (opened : Nat) : Asm Unit := do
  let base := (← func).free
  declareHidden 3
  discard (declare name)
  takeSymbol "="
  discard (toNext (← g.one))
  takeSymbol ","
  discard (toNext (← g.one))
  if ← skipSymbol "," then discard (toNext (← g.one))
  else
    discard (emit (.loadNumber (← func).free (.int 1)))
    reserve 1
  activateMany 3
  g.loopBody base opened 1 false

def iteration (name : String) : Asm Unit := do
  let base := (← func).free
  declareHidden 4
  discard (declare name)
  let mut count := 1
  for _ in [0:(← get).budget] do
    unless ← skipSymbol "," do break
    discard (declare (← takeName))
    count := count + 1
  takeKeyword "in"
  let opened ← line
  let (n, e) ← g.several
  adjust 4 n (some e)
  activateMany 4
  markClosing
  ensure 3
  g.loopBody base opened count true

def forLoop (opened : Nat) : Asm Unit := do
  enterBlock true
  advance
  let name ← takeName
  if ← isSymbol "=" then g.range name opened
  else if ← isSymbol "," then g.iteration name
  else if ← isKeyword "in" then g.iteration name
  else fail "'=' or 'in' expected"
  close skipKeyword "end" "for" opened
  leaveBlock

/-- A condition and the block that it guards; the jumps over what follows, together with those
before. -/
def guarded (escapes : List Nat) : Asm (List Nat) := do
  advance
  let e ← g.one
  takeKeyword "then"
  let mut out := []
  if ← isKeyword "break" then
    let row ← line
    let e ← ifFalse e
    advance
    enterBlock false
    addGoto "break" row e.yes
    for _ in [0:(← get).budget] do
      unless ← skipSymbol ";" do break
    if ← atEnd false then
      leaveBlock
      return escapes
    out := [← jump]
  else
    let e ← ifTrue e
    enterBlock false
    out := e.no
  g.statements
  leaveBlock
  let more := (← isKeyword "else") || (← isKeyword "elseif")
  let escapes ← if more then pure ((← jump) :: escapes) else pure escapes
  patchHere out
  return escapes

def choice (opened : Nat) : Asm Unit := do
  let mut escapes ← g.guarded []
  for _ in [0:(← get).budget] do
    unless ← isKeyword "elseif" do break
    escapes ← g.guarded escapes
  if ← skipKeyword "else" then g.block
  close skipKeyword "end" "if" opened
  patchHere escapes

def functionStatement (opened : Nat) : Asm Unit := do
  advance
  let mut target ← named (← takeName)
  for _ in [0:(← get).budget] do
    unless ← isSymbol "." do break
    target ← fieldOf target
  let isMethod ← isSymbol ":"
  if isMethod then target ← fieldOf target
  let f ← g.body isMethod opened
  checkWritable target
  assign target f
  onLine opened

def localFunction : Asm Unit := do
  let slot := (← func).locals.size
  discard (declare (← takeName))
  activate
  discard (g.body false (← line))
  let pc ← here
  onFunc fun f => { f with locals := f.locals.modify slot fun l => { l with start := pc } }

def attributeKind : Asm VariableKind := do
  if ← skipSymbol "<" then
    let name ← takeName
    takeSymbol ">"
    if name == "const" then return .constant
    if name == "close" then return .closing
    refuse s!"unknown attribute '{name}'"
  return .regular

def localStatement : Asm Unit := do
  let mut count := 0
  let mut closing? : Option Nat := none
  let mut last := 0
  let mut lastKind := VariableKind.regular
  for _ in [0:(← get).budget] do
    last ← declare (← takeName)
    lastKind ← attributeKind
    setKind last lastKind
    if let .closing := lastKind then
      if closing?.isSome then refuse "multiple to-be-closed vars in local list"
      closing? := some ((← func).active + count)
    count := count + 1
    unless ← skipSymbol "," do break
  let (n, e?) ←
    if ← skipSymbol "=" then
      let (n, e) ← g.several
      pure (n, some e)
    else pure (0, none)
  let known? :=
    match lastKind with
    | .constant => if n == count then e?.bind Operand.value? else none
    | _ => none
  match known? with
  | some v =>
    setKind last (.known v)
    activateMany (count - 1)
    activateKnown
  | none =>
    adjust count n e?
    activateMany count
  if let some level := closing? then
    markClosing
    discard (emit (.mark (← registersFor level)))

def returnStatement : Asm Unit := do
  let first ← taken
  if (← atEnd true) || (← isSymbol ";") then discard (emit (.give first (some 0)))
  else
    let (n, e) ← g.several
    if e.isOpen then
      setResults e none
      let isClosing := ((← func).blocks.head?.map (·.closing)).getD false
      match e.kind with
      | .call pc =>
        if n == 1 && !isClosing then
          rework pc fun
            | .call a args _ => .tailCall a args
            | i => i
      | _ => pure ()
      discard (emit (.give first none))
    else if n == 1 then
      let (_, r) ← toAny e
      discard (emit (.give r (some 1)))
    else
      discard (toNext e)
      discard (emit (.give first (some n)))
  discard (skipSymbol ";")

def gotoStatement : Asm Unit := do
  let row ← line
  let name ← takeName
  match ← label? name with
  | none => addGoto name row [← jump]
  | some label =>
    let level ← registersFor label.active
    if (← taken) > level then discard (emit (.close level))
    patch [← jump] label.target

def labelStatement (opened : Nat) : Asm Unit := do
  let name ← takeName
  takeSymbol "::"
  for _ in [0:(← get).budget] do
    if ← isSymbol ";" then g.statement
    else if ← isSymbol "::" then g.statement
    else break
  if let some label ← label? name then
    refuse s!"label '{name}' already defined on line {label.line}"
  discard (putLabel name opened (← atEnd false))

def anyStatement : Asm Unit := do
  let opened ← line
  deeper
  match ← lexeme with
  | .symbol ";" => advance
  | .symbol "::" =>
    advance
    g.labelStatement opened
  | .keyword "if" => g.choice opened
  | .keyword "while" => g.whileLoop opened
  | .keyword "do" =>
    advance
    g.block
    close skipKeyword "end" "do" opened
  | .keyword "for" => g.forLoop opened
  | .keyword "repeat" => g.repeatLoop opened
  | .keyword "function" => g.functionStatement opened
  | .keyword "local" =>
    advance
    if ← skipKeyword "function" then g.localFunction else g.localStatement
  | .keyword "return" =>
    advance
    g.returnStatement
  | .keyword "break" =>
    advance
    addGoto "break" opened [← jump]
  | .keyword "goto" =>
    advance
    gotoStatement
  | _ => g.expressionStatement
  setFree (← taken)
  shallower 1

def allStatements : Asm Unit := do
  for _ in [0:(← get).budget] do
    if ← atEnd true then break
    let isReturn ← isKeyword "return"
    g.anyStatement
    if isReturn then break

end Statements

def upTo : Nat → Grammar
  | 0 => ⟨fun _ => throw .depth, throw .depth, throw .depth⟩
  | n + 1 =>
    let g := upTo n
    ⟨g.operation, g.anyStatement, g.allStatements⟩

end Grammar

def compile (tokens : List Token) : Except CompileFault Proto :=
  let script : Asm Proto := do
    Asm.openFunc 0
    Asm.onFunc fun f => { f with vararg := true, captures := #[⟨"_ENV", true, 0, false⟩] }
    discard (Asm.emit .varargPrep)
    Asm.advance
    (Grammar.upTo (Asm.maxDepth + 1)).statements
    match ← Asm.lexeme with
    | .finish => Asm.closeFunc
    | _ => Asm.expected "<eof>"
  match script.run { rest := tokens, budget := tokens.length + 1 } with
  | .ok proto _ => .ok proto
  | .error fault _ => .error fault

end Lamina.Script
