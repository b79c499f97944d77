import Lamina.Script.Grammar
import Lamina.Script.Library

/-! Running scripts. A script that calls another one waits in the list of callers, so only functions
that are no scripts nest. -/

namespace Lamina.Script.Run

def budget : Nat := 1 <<< 40

/-! ### Functions -/

def limit : Run Nat := do
  let a := (← get).current
  return a.base + a.proto.size

def fillMissing (p : Proto) (func count : Nat) : Run Unit :=
  fill (func + 1 + count) (List.replicate (p.params - count) .nil)

def activation (c : Closure) (func count : Nat) : Activation :=
  { proto := c.proto, chunk := c.chunk, cells := c.cells, func, base := func + 1
    extra := count - c.proto.params }

def closureAt (place : Nat) : Run Closure := return (← get).closures.getD place default

def enter (place func count : Nat) (results : Option Nat) (isFresh : Bool) : Run Unit := do
  let c ← closureAt place
  reserve (func + 1 + count + c.proto.size)
  fillMissing c.proto func count
  modify fun m => { m with
    callers := m.current :: m.callers
    current := { activation c func count with results, isFresh } }

def replace (place func count : Nat) : Run Unit := do
  let c ← closureAt place
  let a := (← get).current
  reserve (func + 1 + count + c.proto.size)
  fill a.func (← slots func (count + 1))
  fillMissing c.proto a.func count
  modify fun m => { m with
    current := { activation c a.func count with
      results := a.results, isFresh := a.isFresh, isTail := true } }

/-- Ends what runs. The results go to the script that waits for them, or to whatever else
called. -/
def leave (values : List Value) : Run (Option (List Value)) := do
  let a := (← get).current
  modify fun m => { m with current := m.callers.headD {}, callers := m.callers.tail }
  if a.isFresh then return some values
  deliver a.func values a.results
  return none

section

variable (call : Caller)

def closeMarked (slot : Nat) : Run Unit := do
  let marked := (← get).marked.takeWhile (slot ≤ ·)
  unless marked.isEmpty do
    modify fun m => { m with marked := m.marked.drop marked.length }
    for s in marked do
      let v ← Run.slot s
      discard (call (← metafield v "__close") [v, .nil])

def service (id : String) : Run Value := do
  match (← get).services.get? id with
  | none => return .nil
  | some (.value j) => store j.sorted
  | some (.failing message) => raise (.failure ("runtime error: " ++ message))
  | some (.script source) =>
    match compile (Token.ofChars source.toList) with
    | .error (.grammar line message) => raise (.failure s!"syntax error: {id}:{line}: {message}")
    | .error .depth => raise (.failure "runtime error: C stack overflow")
    | .ok proto =>
      let environment ← newCell (.closed (.table (← get).globals))
      callOne call (← newClosure ⟨proto, id, #[environment]⟩) []

def guarded (f : Value) (args : List Value) : Run (List Value) := do
  let m ← get
  let start ← limit
  let (current, callers, depth, marked) := (m.current, m.callers, m.depth, m.marked)
  try
    return .bool true :: (← call f args)
  catch raised =>
    closeFrom start
    modify fun m => { m with current, callers, depth, marked }
    return [.bool false, raised.value]

/-- Calls a function that is no script, which may use the slots from one on. -/
def callNative (f : Native) (base : Nat) (args : List Value) : Run (List Value) := do
  if base + nativeSize > maxStack then fail "stack overflow"
  modify fun m => { m with
    callers := m.current :: m.callers, current := { native? := some f, base } }
  let a : Args := ⟨f, args, call⟩
  let results ←
    match f with
    | .pcall => guarded call (← a.any 1) args.tail
    | .lookup => pure [← service call (← a.utf8 1)]
    | _ => applyNative a
  modify fun m => { m with current := m.callers.headD {}, callers := m.callers.tail }
  return results

def failCall {α : Type} (v : Value) (holder : Holder) : Run α := do
  let a := (← get).current
  let name := ((a.calleeNaming?.or (a.naming? holder)).map Naming.text).getD ""
  fail s!"attempt to call a {← typeName v} value{name}"

/-- Puts the function that calls a value in front of it, which becomes its first argument. -/
def callable (func count : Nat) : Run Unit := do
  let v ← slot func
  let handler ← metafield v "__call"
  if handler.isNil then
    let base := (← get).current.base
    failCall v (.register (func - base))
  reserve (func + count + 2)
  fill func (handler :: (← slots func (count + 1)))

def callSlot (results : Option Nat) (func : Nat) : Nat → Nat → Run Unit
  | 0, _ => fail "'__call' chain too long"
  | fuel + 1, count => do
    match ← slot func with
    | .closure place => enter place func count results false
    | .native f =>
      let values ← callNative call f (func + 1 + count) (← slots (func + 1) count)
      deliver func values results
    | _ =>
      callable func count
      callSlot results func fuel (count + 1)

def tailCallSlot (func : Nat) : Nat → Nat → Run (Option (List Value))
  | 0, _ => fail "'__call' chain too long"
  | fuel + 1, count => do
    match ← slot func with
    | .closure place =>
      replace place func count
      return none
    | .native f =>
      let values ← callNative call f (func + 1 + count) (← slots (func + 1) count)
      leave values
    | _ =>
      callable func count
      tailCallSlot func fuel (count + 1)

end

/-! ### Loops -/

def failRange {α : Type} (what : String) (v : Value) : Run α := do
  fail s!"bad 'for' {what} (number expected, got {← typeName v})"

def rangeNumber (what : String) (v : Value) : Run Float :=
  match v.number? with
  | some n => return n.toFloat
  | none => failRange what v

/-- The last integer that a loop over integers may reach; none if the loop does not run. -/
def lastInteger (start step : Int) (limit : Value) : Run (Option Int) := do
  let last? ←
    match limit.number? with
    | none => failRange "limit" limit
    | some (.int n) => pure (some n)
    | some (.float x) =>
      let bound := if step < 0 then -floorInt (-x) else floorInt x
      if !x.isInf && fits bound then pure (some bound)
      else if 0.0 < x then pure (if step < 0 then none else some Int64.maxValue.toInt)
      else pure (if step < 0 then some Int64.minValue.toInt else none)
    | some (.nan _) => pure (if step < 0 then some Int64.minValue.toInt else none)
  return last?.filter fun last => if 0 < step then start ≤ last else last ≤ start

/-- Prepares a loop over numbers; whether it runs. A loop over integers counts how often it runs
again. -/
def prepareRange (a : Nat) : Run Bool := do
  let start ← register a
  let limit ← register (a + 1)
  let step ← register (a + 2)
  match start, step with
  | .number (.int i), .number (.int s) =>
    if s = 0 then fail "'for' step is zero"
    match ← lastInteger i s limit with
    | none => return false
    | some last =>
      setRegister (a + 1) (.int (if 0 < s then (last - i) / s else (i - last) / (-s)))
      setRegister (a + 3) start
      return true
  | _, _ =>
    let last ← rangeNumber "limit" limit
    let s ← rangeNumber "step" step
    let x ← rangeNumber "initial value" start
    if s == 0.0 then fail "'for' step is zero"
    if if 0.0 < s then last < x else x < last then return false
    setRegister (a + 1) (.number (.ofFloat last))
    setRegister (a + 2) (.number (.ofFloat s))
    setRegister a (.number (.ofFloat x))
    setRegister (a + 3) (.number (.ofFloat x))
    return true

def continueRange (a : Nat) : Run Bool := do
  match ← register a, ← register (a + 1), ← register (a + 2) with
  | .number (.int i), .number (.int count), .number (.int s) =>
    if count = 0 then return false
    let next := Value.int (wrap (i + s))
    setRegister (a + 1) (.int (count - 1))
    setRegister a next
    setRegister (a + 3) next
    return true
  | .number x, .number last, .number s =>
    let next := x.toFloat + s.toFloat
    if if 0.0 < s.toFloat then next ≤ last.toFloat else last.toFloat ≤ next then
      let next := Value.number (.ofFloat next)
      setRegister a next
      setRegister (a + 3) next
      return true
    return false
  | _, _, _ => return false

/-! ### Instructions -/

def constant (k : Nat) : Run Value := return (← get).current.proto.consts.getD k .nil

def source : Source → Run Value
  | .reg r => register r
  | .const k => constant k
  | .number n => return .number n

def holder : Source → Holder
  | .reg r => .register r
  | _ => .elsewhere

def jumpTo (pc : Nat) : Run Unit :=
  modify fun m => { m with current := { m.current with pc } }

def skip : Run Unit :=
  modify fun m => { m with current := { m.current with pc := m.current.pc + 1 } }

def decide (outcome expected : Bool) : Run Unit := if outcome != expected then skip else pure ()

def values (r : Nat) (count : Option Nat) : Run (List Value) := do
  let m ← get
  let start := m.current.base + r
  slots start (count.getD (m.top - start))

def makeClosure (p : Nat) : Run Value := do
  let a := (← get).current
  let proto := a.proto.protos.getD p default
  let cells ← proto.captures.mapM fun c =>
    if c.inRegister then openCell (a.base + c.index) else pure (a.cells.getD c.index 0)
  newClosure ⟨proto, a.chunk, cells⟩

def prepareExtra : Run Unit := do
  let a := (← get).current
  let base := a.func + 2 + a.proto.params + a.extra
  reserve (base + a.proto.size)
  fill base (← slots a.base a.proto.params)
  modify fun m => { m with current := { m.current with base } }

def extra : Run (List Value) := do
  let a := (← get).current
  slots (a.func + 1 + a.proto.params) a.extra

def fetchInstr : Run Instr :=
  modifyGet fun m =>
    let pc := m.current.pc
    (m.current.proto.code.getD pc default, { m with current := { m.current with pc := pc + 1 } })

section

variable (call : Caller)

/-- Runs one instruction. There are results when a function ends that something other than a script
called. -/
def step : Run (Option (List Value)) := do
  match ← fetchInstr with
  | .move a b => setRegister a (← register b)
  | .loadNumber a n => setRegister a (.number n)
  | .loadConst a k => setRegister a (← constant k)
  | .loadFalse a => setRegister a (.bool false)
  | .loadFalseSkip a =>
    setRegister a (.bool false)
    skip
  | .loadTrue a => setRegister a (.bool true)
  | .loadNil a count =>
    for i in [0:count] do setRegister (a + i) .nil
  | .getUpvalue a u => setRegister a (← upvalue u)
  | .setUpvalue a u => setUpvalue u (← register a)
  | .getUpField a u k =>
    setRegister a (← index call (← upvalue u) (← constant k) (.upvalue u))
  | .getKey a t key => setRegister a (← index call (← register t) (← register key) (.register t))
  | .getIndex a t n => setRegister a (← index call (← register t) (.int n) (.register t))
  | .getField a t k => setRegister a (← index call (← register t) (← constant k) (.register t))
  | .setUpField u k v =>
    setIndex call (← upvalue u) (← constant k) (← source v) (.upvalue u)
  | .setKey t key v =>
    setIndex call (← register t) (← register key) (← source v) (.register t)
  | .setIndex t n v => setIndex call (← register t) (.int n) (← source v) (.register t)
  | .setField t k v => setIndex call (← register t) (← constant k) (← source v) (.register t)
  | .newTable a items fields =>
    let empty : Fields := {}
    setRegister a (← newTable (empty.resize items fields))
  | .method a t key =>
    let object ← register t
    let f ← index call object (← source key) (.register t)
    setRegister (a + 1) object
    setRegister a f
  | .arith op a x y =>
    setRegister a (← arith call op (← source x) (← source y) (holder x) (holder y))
  | .unary op a b =>
    let v ← register b
    let result ←
      match op with
      | .neg => negate call v (.register b)
      | .bnot => complement call v (.register b)
      | .not => pure (.bool !v.truthy)
      | .len => length call v (.register b)
    setRegister a result
  | .concat a count =>
    match (← values a (some count)).reverse with
    | [] => pure ()
    | last :: before => setRegister a (← concat call before (a + count - 1) last)
  | .close a =>
    let slot := (← get).current.base + a
    closeMarked call slot
    closeFrom slot
  | .mark a =>
    let v ← register a
    if v.truthy then
      if (← metafield v "__close").isNil then
        let current := (← get).current
        let name := (current.proto.localName? a (current.pc - 1)).getD "?"
        fail s!"variable '{name}' got a non-closable value"
      modify fun m => { m with marked := (m.current.base + a) :: m.marked }
  | .jump target => jumpTo target
  | .equal a y k => decide (← equal call (← register a) (← source y)) k
  | .less x y k => decide (← less call (← source x) (← source y)) k
  | .lessEq x y k => decide (← lessEq call (← source x) (← source y)) k
  | .test a k => decide (← register a).truthy k
  | .testSet a b k =>
    let v ← register b
    if v.truthy == k then setRegister a v else skip
  | .call a args results =>
    let func := (← get).current.base + a
    let count := args.getD ((← get).top - func - 1)
    callSlot call results func maxChain count
  | .tailCall a args =>
    let base := (← get).current.base
    let count := args.getD ((← get).top - (base + a) - 1)
    closeFrom base
    return ← tailCallSlot call (base + a) maxChain count
  | .give a count =>
    let results ← values a count
    let base := (← get).current.base
    closeMarked call base
    closeFrom base
    return ← leave results
  | .rangePrep a target => if !(← prepareRange a) then jumpTo (target + 1)
  | .rangeLoop a target => if ← continueRange a then jumpTo target
  | .iterPrep a target =>
    if (← register (a + 3)).truthy then
      modify fun m => { m with marked := (m.current.base + a + 3) :: m.marked }
    jumpTo target
  | .iterCall a count =>
    let results ← call (← register a) [← register (a + 1), ← register (a + 2)]
    deliver ((← get).current.base + a + 4) results (some count)
  | .iterLoop a target =>
    let v ← register (a + 4)
    if !v.isNil then
      setRegister (a + 2) v
      jumpTo target
  | .setItems a count start =>
    match ← register a with
    | .table place =>
      let items ← values (a + 1) count
      onFields place (·.setItems start items)
    | _ => pure ()
  | .closure a p => setRegister a (← makeClosure p)
  | .vararg a count =>
    let results ← extra
    deliver ((← get).current.base + a) results count
  | .varargPrep => prepareExtra
  return none

end

mutual

def execute : Nat → Run (List Value)
  | 0 => fail "the script does not end"
  | fuel + 1 => do
    match ← step (callIn fuel) with
    | some results => return results
    | none => execute fuel

def callIn : Nat → Value → List Value → Run (List Value)
  | 0, _, _ => fail "the script does not end"
  | fuel + 1, f, args => do
    modify fun m => { m with depth := m.depth + 1 }
    if (← get).depth ≥ maxDepth then fail "C stack overflow"
    let start ← limit
    let results ←
      match f with
      | .native g => callNative (callIn fuel) g (start + 1 + args.length) args
      | .closure place =>
        reserve (start + 1 + args.length)
        fill start (f :: args)
        enter place start args.length none true
        execute fuel
      | v =>
        let handler ← metafield v "__call"
        if handler.isNil then failCall v .elsewhere
        callIn fuel handler (v :: args)
    modify fun m => { m with depth := m.depth - 1 }
    return results

end

def callValue : Caller := callIn budget

end Lamina.Script.Run
