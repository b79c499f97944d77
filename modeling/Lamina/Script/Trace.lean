import Lamina.Script.Machine

/-! What messages say about running code: the names of the variables and fields that values come
from, found by reading the code backwards, and where every running function is. -/

namespace Lamina.Script

def Instr.changes (r : Nat) : Instr → Bool
  | .move a _ | .loadNumber a _ | .loadConst a _ | .loadFalse a | .loadFalseSkip a | .loadTrue a
  | .getUpvalue a _ | .getUpField a _ _ | .getKey a _ _ | .getIndex a _ _ | .getField a _ _
  | .newTable a _ _ | .method a _ _ | .arith _ a _ _ | .unary _ a _ | .concat a _ | .closure a _
  | .vararg a _ | .testSet a _ _ | .rangePrep a _ | .rangeLoop a _ | .iterLoop a _ => a == r
  | .loadNil a count => a ≤ r && r < a + count
  | .iterCall a _ => a + 2 ≤ r
  | .call a _ _ | .tailCall a _ => a ≤ r
  | _ => false

/-- What a value is called in a message. -/
structure Naming where
  /-- What it is: a local variable, a field, … -/
  what : String
  name : String

def Naming.text (n : Naming) : String := s!" ({n.what} '{n.name}')"

namespace Proto

def localName? (p : Proto) (r pc : Nat) : Option String :=
  let visible := (p.locals.toList.takeWhile (·.start ≤ pc)).filter (pc < ·.stop)
  visible[r]?.map (·.name)

/-- The last instruction before another one that changed a register, unless a jump may have passed
it over. -/
def setter? (p : Proto) (pc r : Nat) : Option Nat :=
  let step (state : Option Nat × Nat) (entry : Instr × Nat) : Option Nat × Nat :=
    let (found?, target) := state
    match entry with
    | (.jump dest, _) => (found?, if dest ≤ pc && target < dest then dest else target)
    | (i, place) =>
      if i.changes r then (if place < target then none else some place, target) else state
  (((p.code.extract 0 pc).toList.zipIdx.foldl step (none, 0))).1

def captureName (p : Proto) (u : Nat) : String := (p.captures[u]?.map (·.name)).getD "?"

def constName? (p : Proto) (k : Nat) : Option String :=
  match p.consts[k]? with
  | some (.text b) => some (Bytes.lossy b)
  | _ => none

/-- The name of a variable or constant in a register, or else where the register was set. -/
def simpleNaming (p : Proto) : Nat → Nat → Nat → Naming ⊕ Option Nat
  | 0, _, _ => .inr none
  | fuel + 1, pc, r =>
    match p.localName? r pc with
    | some name => .inl ⟨"local", name⟩
    | none =>
      match p.setter? pc r with
      | none => .inr none
      | some pc =>
        match p.code[pc]? with
        | some (.move a b) => if b < a then simpleNaming p fuel pc b else .inr (some pc)
        | some (.getUpvalue _ u) => .inl ⟨"upvalue", p.captureName u⟩
        | some (.loadConst _ k) =>
          match p.constName? k with
          | some name => .inl ⟨"constant", name⟩
          | none => .inr (some pc)
        | _ => .inr (some pc)

def keyName (p : Proto) (pc r : Nat) : String :=
  match p.simpleNaming (p.size + 1) pc r with
  | .inl n => if n.what = "constant" then n.name else "?"
  | .inr _ => "?"

def fieldKind (isEnvironment : Bool) : String := if isEnvironment then "global" else "field"

def isEnvironment (p : Proto) (pc t : Nat) : Bool :=
  match p.simpleNaming (p.size + 1) pc t with
  | .inl n => n.what != "constant" && n.name == "_ENV"
  | .inr _ => false

def naming? (p : Proto) (pc r : Nat) : Option Naming :=
  match p.simpleNaming (p.size + 1) pc r with
  | .inl n => some n
  | .inr none => none
  | .inr (some pc) =>
    match p.code[pc]? with
    | some (.getUpField _ u k) =>
      some ⟨fieldKind (p.captureName u == "_ENV"), (p.constName? k).getD "?"⟩
    | some (.getKey _ t key) => some ⟨fieldKind (p.isEnvironment pc t), p.keyName pc key⟩
    | some (.getIndex ..) => some ⟨"field", "integer index"⟩
    | some (.getField _ t k) =>
      some ⟨fieldKind (p.isEnvironment pc t), (p.constName? k).getD "?"⟩
    | some (.method _ _ key) =>
      match key with
      | .const k => some ⟨"method", (p.constName? k).getD "?"⟩
      | .reg r => some ⟨"method", p.keyName pc r⟩
      | .number _ => some ⟨"method", "?"⟩
    | _ => none

def calleeNaming? (p : Proto) (pc : Nat) : Option Naming :=
  let event (name : String) : Option Naming := some ⟨"metamethod", name⟩
  match p.code[pc]? with
  | some (.call a _ _) | some (.tailCall a _) => p.naming? pc a
  | some (.iterCall ..) => some ⟨"for iterator", "for iterator"⟩
  | some (.method ..) | some (.getUpField ..) | some (.getKey ..) | some (.getIndex ..)
  | some (.getField ..) => event "index"
  | some (.setUpField ..) | some (.setKey ..) | some (.setIndex ..) | some (.setField ..) =>
    event "newindex"
  | some (.arith op ..) => event op.name
  | some (.unary op ..) => event op.name
  | some (.concat ..) => event "concat"
  | some (.equal ..) => event "eq"
  | some (.less ..) => event "lt"
  | some (.lessEq ..) => event "le"
  | some (.close _) | some (.give ..) => event "close"
  | _ => none

end Proto

/-- Where an operand came from. -/
inductive Holder
  | register (r : Nat)
  | upvalue (u : Nat)
  | elsewhere

namespace Activation

def naming? (a : Activation) (holder : Holder) : Option Naming :=
  if a.native?.isSome then none
  else
    match holder with
    | .register r => a.proto.naming? (a.pc - 1) r
    | .upvalue u => some ⟨"upvalue", a.proto.captureName u⟩
    | .elsewhere => none

def calleeNaming? (a : Activation) : Option Naming :=
  if a.native?.isSome then none else a.proto.calleeNaming? (a.pc - 1)

def text (a : Activation) : String :=
  let tail := if a.isTail then "\n\t(...tail calls...)" else ""
  match a.line? with
  | some line => s!"\n\t{a.chunk}:{line}: in function <{a.chunk}>{tail}"
  | none => "\n\t[C]: in ?" ++ tail

end Activation

/-- All running functions, the innermost first; of many, only the first and the last ones. -/
def traceback (running : List Activation) : String :=
  -- The outermost one only waits for scripts.
  let running := running.dropLast
  let count := running.length
  let lines (running : List Activation) : String := String.join (running.map Activation.text)
  let shown :=
    if count ≤ 21 then lines running
    else lines (running.take 9) ++ "\n\t..." ++ lines (running.drop (count - 11))
  "\nstack traceback:\n\t[C]: in ?" ++ shown

def Run.failType {α : Type} (operation : String) (v : Value) (holder : Holder) : Run α := do
  let name := (((← get).current.naming? holder).map Naming.text).getD ""
  Run.fail s!"attempt to {operation} a {← Run.typeName v} value{name}"

end Lamina.Script
