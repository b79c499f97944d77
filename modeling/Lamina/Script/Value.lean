import Lamina.Script.Number

/-! Values of scripts. Tables and functions are places in the stores of a machine, so that several
values can share them. -/

namespace Lamina.Script

/-- Functions that scripts can call and that are no scripts themselves. -/
inductive Native
  | tostring | tonumber | type | error | assert | pcall | select
  | next | pairs | ipairs | ipairsStep
  | rawget | rawset | rawequal | rawlen | setmetatable | getmetatable
  | upper | lower | rep | len | sub | reverse | byte | char | find | capture | gsub | format
  | concat | insert | remove | unpack
  | floor | ceil | abs | max | min | sqrt | tointeger | mathType
  | encode | encodePretty | decode
  | arith (op : Arith)
  | negate
  | lookup
  | idle (name : String)
  /-- Is there under its name, but every call of it fails. -/
  | unsupported (name : String)
  deriving DecidableEq, Repr

inductive Value
  | nil
  | bool (b : Bool)
  | number (n : Number)
  | text (b : ByteArray)
  | table (place : Nat)
  | closure (place : Nat)
  | native (f : Native)
  | null
  /-- A failure of something that is no script. -/
  | failure (message : String)

instance : Inhabited Value := ⟨.nil⟩

namespace Value

def int (n : Int) : Value := .number (.int n)

def ofString (s : String) : Value := .text s.toUTF8

def typeName : Value → String
  | nil => "nil"
  | bool _ => "boolean"
  | number _ => "number"
  | text _ => "string"
  | table _ => "table"
  | closure _ | native _ => "function"
  | null | failure _ => "userdata"

def kindName : Value → String
  | number (.int _) => "integer"
  | null => "lightuserdata"
  | failure _ => "error"
  | v => v.typeName

def isNil : Value → Bool
  | nil => true
  | _ => false

def truthy : Value → Bool
  | nil | bool false => false
  | _ => true

/-- Equality of values; tables and functions are equal if they are the same. -/
def same : Value → Value → Bool
  | nil, nil | null, null => true
  | bool a, bool b => a == b
  | number a, number b => a.beq b
  | text a, text b => a == b
  | table a, table b => a == b
  | closure a, closure b => a == b
  | native a, native b => a == b
  | _, _ => false

def bytes? : Value → Option ByteArray
  | text b => some b
  | number n => some n.text.toUTF8
  | _ => none

def number? : Value → Option Number
  | number n => some n
  | text b => textNumber? b
  | _ => none

def key : Value → Value
  | number (.float x) => number (((integer? x).filter fits).elim (.float x) .int)
  | v => v

end Value

end Lamina.Script
