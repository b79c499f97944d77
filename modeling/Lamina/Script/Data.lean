import Lamina.Json.Printer
import Lamina.Json.Reader
import Lamina.Script.Machine

/-! JSON and the values of scripts. Objects and arrays become tables; a table with items, or made
from an array, becomes an array again. -/

namespace Lamina.Script

mutual

def store : Json → Run Value
  | .null => return .null
  | .bool b => return .bool b
  | .int n => return .number (if fits n then .int n else .float (Float.ofInt n))
  | .float x => return .number (.float x)
  | .str s => return .ofString s
  | .arr items => do
    let items ← storeItems items
    Run.newTable { Fields.ofItems items.toArray with isList := true }
  | .obj members => do
    let fields ← storeMembers members
    let empty : Fields := {}
    Run.newTable (fields.foldl (fun f (key, v) => f.set key v) (empty.resize 0 fields.length))

def storeItems : List Json → Run (List Value)
  | [] => return []
  | j :: rest => return (← store j) :: (← storeItems rest)

def storeMembers : List (String × Json) → Run (List (Value × Value))
  | [] => return []
  | (name, j) :: rest => return (.ofString name, ← store j) :: (← storeMembers rest)

end

/-- JSON as scripts see it: members sorted, the last of one name kept, and wide integers as
doubles. -/
def narrow (j : Json) : Json := go j.sorted
where
  go : Json → Json
    | .int n => if fits n then .int n else .float (Float.ofInt n)
    | .arr items => .arr (goItems items)
    | .obj members => .obj (goMembers members)
    | j => j
  goItems : List Json → List Json
    | [] => []
    | j :: rest => go j :: goItems rest
  goMembers : List (String × Json) → List (String × Json)
    | [] => []
    | (name, j) :: rest => (name, go j) :: goMembers rest

def plainFloat : FloatFormat := ⟨Binary.shortest, -400, 400, true, 1⟩

def keyText : Value → Except String String
  | .text b =>
    match String.fromUTF8? b with
    | some s => .ok s
    | none => .error "invalid type: byte array, expected a string key"
  | .number (.int n) => .error s!"invalid type: integer `{n}`, expected a string key"
  | .number n =>
    let shown := plainFloat.finite n.toFloat
    .error s!"invalid type: floating point `{shown}`, expected a string key"
  | .bool b => .error s!"invalid type: boolean `{b}`, expected a string key"
  | v => .error s!"unsupported value type `{v.typeName}`"

/-- The JSON of a value; `above` are the tables it stands in. Items count up to the first that is
missing. -/
def jsonOf (m : Machine) : Nat → List Nat → Value → Except String Json
  | _, _, .nil | _, _, .null => .ok .null
  | _, _, .bool b => .ok (.bool b)
  | _, _, .number (.int n) => .ok (.int n)
  | _, _, .number (.float x) => .ok (if x.isInf then .null else .float x)
  | _, _, .number (.nan _) => .ok .null
  | _, _, .text b =>
    match String.fromUTF8? b with
    | some s => .ok (.str s)
    | none => .error "invalid type: byte array, expected any valid JSON value"
  | _, _, .closure _ | _, _, .native _ => .error "unsupported value type `function`"
  | _, _, .failure _ => .error "unsupported value type `error`"
  | 0, _, .table _ => .error "recursive table detected"
  | fuel + 1, above, .table place =>
    if above.contains place then .error "recursive table detected"
    else
      let f := m.tables.getD place {}
      let (length, _) := f.length
      if length > 0 || f.isList then
        let items := (List.range length).map fun (i : Nat) => f.get (.int (i + 1))
        ((items.takeWhile (!·.isNil)).mapM (jsonOf m fuel (place :: above))).map .arr
      else do
        let members ← f.pairs.mapM fun (k, v) => do
          return (← keyText k, ← jsonOf m fuel (place :: above) v)
        return .obj members

def encode (pretty : Bool) (v : Value) : Run Value := do
  let m ← get
  match jsonOf m (m.tables.size + 1) [] v with
  | .ok j => return .ofString (if pretty then j.sorted.pretty else j.sorted.compact)
  | .error message => Run.raise (.failure ("deserialize error: " ++ message))

def decode (text : String) : Run Value := do
  match Json.read text with
  | some j => store j.sorted
  | none => Run.raise (.failure "JSON decode error: invalid JSON")

end Lamina.Script
