import Lamina.Script.Execution

/-! Scripts from the outside: a script is loaded under a name, and the function it gives renders
data to text. All scripts of a machine share its global variables. -/

namespace Lamina

inductive ScriptFault
  | grammar (message : String)
  /-- The script stopped; the text says what was running. -/
  | stopped (text : String)
  | kind (found wanted : String)
  deriving DecidableEq, Repr

def ScriptFault.text : ScriptFault → String
  | grammar message => "syntax error: " ++ message
  | stopped text => text
  | kind found wanted => s!"error converting Lua {found} to {wanted}"

namespace Script

def Raised.text (raised : Raised) : Run String := do
  let message ←
    match raised.value with
    | .failure message => pure message
    | v => pure ("runtime error: " ++ Bytes.lossy (← Run.text Run.callValue v))
  return message ++ traceback raised.running

def Machine.halted (m : Machine) : Machine :=
  match (Run.closeFrom 0).run m with
  | .ok _ m | .error _ m => { m with current := {}, callers := [], depth := 0, marked := [] }

def Machine.perform {α : Type} (m : Machine) (run : Run α) : Except ScriptFault α × Machine :=
  match run.run m with
  | .ok a m => (.ok a, m)
  | .error raised m =>
    match (Raised.text raised).run m.halted with
    | .ok text m => (.error (.stopped text), m.halted)
    | .error _ m => (.error (.stopped "runtime error: error in error handling"), m.halted)

def Machine.runScript (m : Machine) (name : String) (tokens : List Token) :
    Except ScriptFault (List Value) × Machine :=
  match compile tokens with
  | .error (.grammar line message) =>
    (.error (.grammar (name ++ ":" ++ toString line ++ ": " ++ message)), m)
  | .error .depth => (.error (.stopped "runtime error: C stack overflow"), m)
  | .ok proto =>
    m.perform do
      let environment ← Run.newCell (.closed (.table (← get).globals))
      Run.callValue (← Run.newClosure ⟨proto, name, #[environment]⟩) []

def resultText (v : Value) : Except ScriptFault String :=
  match v.bytes? with
  | none => .error (.kind v.kindName "String (expected string or number)")
  | some b =>
    match String.fromUTF8? b with
    | some s => .ok s
    | none => .error (.kind "string" ("String (" ++ Bytes.faultText b ++ ")"))

end Script

/-- Scripts that have been loaded on a machine, by name. -/
structure Scripts where
  machine : Script.Machine
  functions : Table String Script.Value := {}

namespace Scripts

def empty (services : Script.Services) : Scripts := { machine := .fresh services }

def load (s : Scripts) (name source : String) : Except ScriptFault Script.Value × Scripts :=
  match s.functions.get? name with
  | some f => (.ok f, s)
  | none =>
    let (loaded, machine) := s.machine.runScript name (Script.Token.ofChars source.toList)
    let s := { s with machine }
    match loaded with
    | .error fault => (.error fault, s)
    | .ok values =>
      let v := values.headD .nil
      if Script.Run.isFunction v then
        (.ok v, { s with functions := s.functions.set name v })
      else (.error (.kind v.kindName "function"), s)

/-- What the function of a script makes of data; only objects and arrays carry variables. -/
def render (s : Scripts) (name source : String) (data : Json) :
    Except ScriptFault String × Scripts :=
  match s.load name source with
  | (.error fault, s) => (.error fault, s)
  | (.ok f, s) =>
    let (values, machine) := s.machine.perform do
      let table ←
        match ← Script.store data.sorted with
        | .table place => pure (.table place)
        | _ => Script.Run.newTable {}
      Script.Run.callValue f [table, .native .lookup]
    (values.bind fun values => Script.resultText (values.headD .nil), { s with machine })

end Scripts

end Lamina
