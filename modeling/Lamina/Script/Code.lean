import Lamina.Script.Value

/-! Code of scripts: instructions that work on the registers of a function, its constants and its
upvalues. Each instruction has a line. -/

namespace Lamina.Script

/-- Where an operand comes from. -/
inductive Source
  | reg (r : Nat)
  | const (k : Nat)
  | number (n : Number)

inductive Unary
  | neg
  | bnot
  | not
  | len
  deriving DecidableEq, Repr

def Unary.name : Unary → String
  | neg => "unm"
  | bnot => "bnot"
  | not => "not"
  | len => "len"

/-- Instructions. The first operand `a` is the register that an instruction sets. A count that is
absent reaches to the top of the stack, and results that are not counted are all taken. -/
inductive Instr
  | move (a b : Nat)
  | loadNumber (a : Nat) (n : Number)
  | loadConst (a k : Nat)
  | loadFalse (a : Nat)
  /-- Loads `false` and passes over the next instruction. -/
  | loadFalseSkip (a : Nat)
  | loadTrue (a : Nat)
  | loadNil (a count : Nat)
  | getUpvalue (a u : Nat)
  | setUpvalue (a u : Nat)
  | getUpField (a u k : Nat)
  | getKey (a t key : Nat)
  | getIndex (a t n : Nat)
  | getField (a t k : Nat)
  | setUpField (u k : Nat) (v : Source)
  | setKey (t key : Nat) (v : Source)
  | setIndex (t n : Nat) (v : Source)
  | setField (t k : Nat) (v : Source)
  | newTable (a items fields : Nat)
  /-- A method of an object, and behind it the object. -/
  | method (a t : Nat) (key : Source)
  | arith (op : Arith) (a : Nat) (x y : Source)
  | unary (op : Unary) (a b : Nat)
  | concat (a count : Nat)
  | close (a : Nat)
  /-- Marks a register whose value is closed when it goes out of scope. -/
  | mark (a : Nat)
  | jump (target : Nat)
  /-- Tests are followed by a jump, which is taken if the test comes out as `k`. -/
  | equal (a : Nat) (y : Source) (k : Bool)
  | less (x y : Source) (k : Bool)
  | lessEq (x y : Source) (k : Bool)
  | test (a : Nat) (k : Bool)
  | testSet (a b : Nat) (k : Bool)
  | call (a : Nat) (args results : Option Nat)
  | tailCall (a : Nat) (args : Option Nat)
  | give (a : Nat) (count : Option Nat)
  | rangePrep (a target : Nat)
  | rangeLoop (a target : Nat)
  | iterPrep (a target : Nat)
  | iterCall (a count : Nat)
  | iterLoop (a target : Nat)
  /-- Items for a table, the first one at the index behind `start`. -/
  | setItems (a : Nat) (count : Option Nat) (start : Nat)
  | closure (a p : Nat)
  | vararg (a : Nat) (count : Option Nat)
  /-- Moves the arguments behind the parameters out of the way. -/
  | varargPrep
  deriving Inhabited

namespace Instr

def isTest : Instr → Bool
  | equal .. | less .. | lessEq .. | test .. | testSet .. => true
  | _ => false

def into (a : Nat) : Instr → Instr
  | getUpvalue _ u => getUpvalue a u
  | getUpField _ u k => getUpField a u k
  | getKey _ t key => getKey a t key
  | getIndex _ t n => getIndex a t n
  | getField _ t k => getField a t k
  | arith op _ x y => arith op a x y
  | unary op _ b => unary op a b
  | closure _ p => closure a p
  | vararg _ count => vararg a count
  | i => i

def negated : Instr → Instr
  | equal a y k => equal a y !k
  | less x y k => less x y !k
  | lessEq x y k => lessEq x y !k
  | test a k => test a !k
  | testSet a b k => testSet a b !k
  | i => i

def toward (target : Nat) : Instr → Instr
  | jump _ => jump target
  | rangePrep a _ => rangePrep a target
  | rangeLoop a _ => rangeLoop a target
  | iterPrep a _ => iterPrep a target
  | iterLoop a _ => iterLoop a target
  | i => i

end Instr

/-- How a closure finds a variable of the functions around it. -/
structure Capture where
  name : String
  /-- Whether it is in a register of the next function, or else one of its upvalues. -/
  inRegister : Bool
  index : Nat
  readOnly : Bool := false
  deriving Inhabited

/-- A local variable and the instructions it is visible for. -/
structure Local where
  name : String
  start : Nat
  stop : Nat
  deriving Inhabited

inductive Proto
  | mk (code : Array Instr) (lines : Array Nat) (consts : Array Value) (protos : Array Proto)
      (captures : Array Capture) (locals : Array Local) (params size : Nat) (vararg : Bool)

namespace Proto

instance : Inhabited Proto := ⟨mk #[] #[] #[] #[] #[] #[] 0 0 false⟩

def code : Proto → Array Instr
  | mk code .. => code

def lines : Proto → Array Nat
  | mk _ lines .. => lines

def consts : Proto → Array Value
  | mk _ _ consts .. => consts

def protos : Proto → Array Proto
  | mk _ _ _ protos .. => protos

def captures : Proto → Array Capture
  | mk _ _ _ _ captures .. => captures

def locals : Proto → Array Local
  | mk _ _ _ _ _ locals .. => locals

def params : Proto → Nat
  | mk _ _ _ _ _ _ params .. => params

def size : Proto → Nat
  | mk _ _ _ _ _ _ _ size _ => size

def vararg : Proto → Bool
  | mk _ _ _ _ _ _ _ _ vararg => vararg

end Proto

end Lamina.Script
