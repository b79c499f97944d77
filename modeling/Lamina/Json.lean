/-! JSON values. An object keeps its members as they were written; of members with one name the
last counts. -/

namespace Lamina

inductive Json
  | null
  | bool (b : Bool)
  | int (n : Int)
  | float (x : Float)
  | str (s : String)
  | arr (items : List Json)
  | obj (members : List (String × Json))
  deriving Repr, Inhabited

namespace Json

/-- The value of the last member named `name`; nothing for a value that is no object. -/
def get? (name : String) : Json → Option Json
  | obj members => (members.reverse.find? (·.1 == name)).map (·.2)
  | _ => none

def getD (j : Json) (name : String) : Json := (j.get? name).getD .null

def str? : Json → Option String
  | str s => some s
  | _ => none

def bool? : Json → Option Bool
  | bool b => some b
  | _ => none

def int? : Json → Option Int
  | int n => some n
  | _ => none

def nat? : Json → Option Nat
  | int (.ofNat n) => some n
  | _ => none

def arr? : Json → Option (List Json)
  | arr items => some items
  | _ => none

/-- `member` placed by its name among members sorted by name; it replaces one of that name. -/
def place (member : String × Json) : List (String × Json) → List (String × Json)
  | [] => [member]
  | other :: rest =>
    if member.1 < other.1 then member :: other :: rest
    else if member.1 = other.1 then member :: rest
    else other :: place member rest

mutual

/-- The value with the members of each object sorted by name, each name once. -/
def sorted : Json → Json
  | arr items => arr (sortedItems items)
  | obj members => obj (sortedMembers members)
  | other => other

def sortedItems : List Json → List Json
  | [] => []
  | item :: rest => sorted item :: sortedItems rest

def sortedMembers : List (String × Json) → List (String × Json)
  | [] => []
  | (name, value) :: rest =>
    let rest := sortedMembers rest
    if rest.any (·.1 == name) then rest else place (name, sorted value) rest

end

end Json

end Lamina
