import Lamina.Json
import Lamina.Script.Code
import Lamina.Script.Fields
import Lamina.Table

/-! The machine that scripts run on: a stack of registers, the functions that are running, and the
stores of tables, functions and shared variables. -/

namespace Lamina.Script

/-- A variable that functions share: in a register for as long as its block runs, then on its
own. -/
inductive Cell
  | register (slot : Nat)
  | closed (v : Value)

structure Closure where
  proto : Proto
  chunk : String
  cells : Array Nat
  deriving Inhabited

/-- A running function. -/
structure Activation where
  native? : Option Native := none
  proto : Proto := default
  chunk : String := ""
  cells : Array Nat := #[]
  /-- The slot of the function on the stack, and that of the first register. -/
  func : Nat := 0
  base : Nat := 0
  pc : Nat := 0
  results : Option Nat := none
  /-- How many arguments there are behind the parameters. -/
  extra : Nat := 0
  /-- Whether something other than a script called it. -/
  isFresh : Bool := false
  /-- Whether it replaced the function that called it. -/
  isTail : Bool := false
  deriving Inhabited

namespace Activation

def line? (a : Activation) : Option Nat :=
  if a.native?.isSome then none else a.proto.lines[a.pc - 1]?

def place (a : Activation) : String :=
  match a.line? with
  | some line => a.chunk ++ ":" ++ toString line ++ ": "
  | none => ""

end Activation

/-- Something that pages can ask for by name. -/
inductive Service
  | value (j : Json)
  | script (source : String)
  | failing (message : String)

abbrev Services := Table String Service

structure Machine where
  stack : Array Value := #[]
  /-- The end of values whose number is not fixed. -/
  top : Nat := 0
  current : Activation := {}
  /-- The functions that wait, the last caller first. -/
  callers : List Activation := []
  /-- How many functions other than scripts have called something that still runs. -/
  depth : Nat := 0
  /-- The cells in registers with their slots, the highest first. -/
  opened : List (Nat × Nat) := []
  /-- The slots whose values are closed when they go out of scope. -/
  marked : List Nat := []
  cells : Array Cell := #[]
  tables : Array Fields := #[]
  closures : Array Closure := #[]
  services : Services := {}
  /-- The places of the table of global variables and of what all texts have in common. -/
  globals : Nat := 0
  texts : Nat := 0
  deriving Inhabited

/-- Why a script stopped, and what was running then. -/
structure Raised where
  value : Value
  running : List Activation

abbrev Run := EStateM Raised Machine

abbrev Caller := Value → List Value → Run (List Value)

namespace Run

def maxStack : Nat := 1000000

def maxDepth : Nat := 200

def nativeSize : Nat := 20

/-! ### Failures -/

def running : Run (List Activation) := do
  let m ← get
  return m.current :: m.callers

def raise {α : Type} (v : Value) : Run α := do
  throw ⟨v, ← running⟩

/-- Where the function at a level is; the innermost one is at level zero. -/
def position (level : Nat) : Run String := do
  return (((← running)[level]?).map Activation.place).getD ""

def fail {α : Type} (message : String) : Run α := do
  raise (.ofString ((← position 0) ++ message))

def failCaller {α : Type} (message : String) : Run α := do
  raise (.ofString ((← position 1) ++ message))

/-! ### Registers -/

def slot (i : Nat) : Run Value := return (← get).stack.getD i .nil

def setSlot (i : Nat) (v : Value) : Run Unit :=
  modify fun m => { m with stack := m.stack.setIfInBounds i v }

def register (r : Nat) : Run Value := do
  let m ← get
  return m.stack.getD (m.current.base + r) .nil

def setRegister (r : Nat) (v : Value) : Run Unit :=
  modify fun m => { m with stack := m.stack.setIfInBounds (m.current.base + r) v }

def setTop (top : Nat) : Run Unit := modify fun m => { m with top }

def reserve (size : Nat) : Run Unit := do
  if size > maxStack then fail "stack overflow"
  if (← get).stack.size < size then
    modify fun m => { m with
      stack := m.stack ++ Array.replicate (max size (2 * m.stack.size) - m.stack.size) .nil }

def slots (start count : Nat) : Run (List Value) := do
  let m ← get
  return (List.range count).map fun i => m.stack.getD (start + i) .nil

def fill (start : Nat) : List Value → Run Unit
  | [] => pure ()
  | v :: rest => do
    setSlot start v
    fill (start + 1) rest

def deliver (start : Nat) (values : List Value) (wanted : Option Nat) : Run Unit := do
  match wanted with
  | some count =>
    fill start ((values ++ List.replicate (count - values.length) Value.nil).take count)
  | none =>
    reserve (start + values.length)
    fill start values
    setTop (start + values.length)

/-! ### Cells -/

def cell (place : Nat) : Run Value := do
  let m ← get
  match m.cells[place]? with
  | some (.register i) => return m.stack.getD i .nil
  | some (.closed v) => return v
  | none => return .nil

def settle (place : Nat) (v : Value) : Run Unit :=
  modify fun m => { m with cells := m.cells.setIfInBounds place (.closed v) }

def setCell (place : Nat) (v : Value) : Run Unit := do
  match (← get).cells[place]? with
  | some (.register i) => setSlot i v
  | _ => settle place v

def upvalue (u : Nat) : Run Value := do cell ((← get).current.cells.getD u 0)

def setUpvalue (u : Nat) (v : Value) : Run Unit := do
  setCell ((← get).current.cells.getD u 0) v

def newCell (c : Cell) : Run Nat :=
  modifyGet fun m => (m.cells.size, { m with cells := m.cells.push c })

def insertOpen (slot place : Nat) : List (Nat × Nat) → List (Nat × Nat)
  | [] => [(slot, place)]
  | (s, p) :: rest =>
    if s < slot then (slot, place) :: (s, p) :: rest else (s, p) :: insertOpen slot place rest

def openCell (slot : Nat) : Run Nat := do
  match (← get).opened.find? (·.1 == slot) with
  | some (_, place) => return place
  | none =>
    let place ← newCell (.register slot)
    modify fun m => { m with opened := insertOpen slot place m.opened }
    return place

def closeFrom (start : Nat) : Run Unit := do
  let gone := (← get).opened.takeWhile fun (s, _) => start ≤ s
  unless gone.isEmpty do
    modify fun m => { m with opened := m.opened.drop gone.length }
    for (s, place) in gone do settle place (← slot s)

/-! ### Tables -/

def newTable (f : Fields) : Run Value :=
  modifyGet fun m => (.table m.tables.size, { m with tables := m.tables.push f })

def fields (place : Nat) : Run Fields := return (← get).tables.getD place {}

def onFields (place : Nat) (change : Fields → Fields) : Run Unit :=
  modify fun m => { m with tables := m.tables.modify place change }

/-- A field, without regard to what the table has in common with others. -/
def rawGet (place : Nat) (key : Value) : Run Value := do
  let f ← fields place
  let v := f.get key
  if f.isBehind key.key then onFields place (·.use key.key)
  return v

def rawSet (place : Nat) (key v : Value) : Run Unit := onFields place (·.set key v)

def rawLength (place : Nat) : Run Nat := do
  let f ← fields place
  let limit := f.limit
  let (n, f) := f.length
  if f.limit != limit then
    let limit := f.limit
    onFields place fun f => { f with limit }
  return n

def meta? (v : Value) : Run (Option Nat) := do
  match v with
  | .table place => return (← fields place).meta?
  | .text _ => return some (← get).texts
  | _ => return none

def metafield (v : Value) (name : String) : Run Value := do
  match ← meta? v with
  | some place => rawGet place (.ofString name)
  | none => return .nil

/-- How messages name the type of a value; tables may have a name of their own. -/
def typeName (v : Value) : Run String := do
  match v with
  | .table _ =>
    match ← metafield v "__name" with
    | .text b => return Bytes.lossy b
    | _ => return v.typeName
  | _ => return v.typeName

def newClosure (c : Closure) : Run Value :=
  modifyGet fun m => (.closure m.closures.size, { m with closures := m.closures.push c })

end Run

end Lamina.Script
