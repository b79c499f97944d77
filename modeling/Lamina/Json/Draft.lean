import Lamina.Json

/-! JSON values as they are written. Numbers out of range and literals that are no text have a place
in a draft; a reader that passes over them never looks at them. -/

namespace Lamina.Json

/-- A string literal: the text it stands for, if its escapes make one, and whether it has none. -/
structure Literal where
  text? : Option String
  plain : Bool
  deriving DecidableEq, Repr

inductive Draft
  | leaf (value? : Option Json)
  | text (literal : Literal)
  | arr (items : List Draft)
  | obj (members : List (Literal × Draft))
  deriving Repr, Inhabited

namespace Draft

mutual

def value? (room : Nat) : Draft → Option Json
  | leaf j => j
  | text l => l.text?.map .str
  | arr items => if room = 0 then none else (values? (room - 1) items).map .arr
  | obj members => if room = 0 then none else (members? (room - 1) members).map .obj

def values? (room : Nat) : List Draft → Option (List Json)
  | [] => some []
  | item :: rest => do
    let j ← value? room item
    let more ← values? room rest
    return j :: more

def members? (room : Nat) : List (Literal × Draft) → Option (List (String × Json))
  | [] => some []
  | (name, item) :: rest => do
    let name ← name.text?
    let j ← value? room item
    let more ← members? room rest
    return (name, j) :: more

end

end Draft

/-- What a reader looks at in a draft. -/
inductive Schema
  | whole
  | list (item : Schema)
  /-- The members of an object, whose names are numbers without escapes. -/
  | numbered (item : Schema)
  /-- The fields of a record; other members of an object are passed over. -/
  | record (fields : List (String × Schema))
  /-- The record that this stands in, once more. -/
  | again

namespace Draft

mutual

/-- The part of a draft that a schema looks at; `outer` are the fields of the record around it. -/
def select (outer : List (String × Schema)) (room : Nat) (s : Schema) : Draft → Option Json
  | leaf j => j
  | text l => l.text?.map .str
  | arr items =>
    if room = 0 then none
    else
      match s with
      | .list s => (selectAll outer (room - 1) s items).map .arr
      | .record fields => (selectFront fields (room - 1) fields items).map .arr
      | .again => (selectFront outer (room - 1) outer items).map .arr
      | _ => (values? (room - 1) items).map .arr
  | obj members =>
    if room = 0 then none
    else
      match s with
      | .numbered s => (selectNumbered outer (room - 1) s members).map .obj
      | .record fields => (selectFields fields (room - 1) members).map .obj
      | .again => (selectFields outer (room - 1) members).map .obj
      | _ => (members? (room - 1) members).map .obj

def selectAll (outer : List (String × Schema)) (room : Nat) (s : Schema) :
    List Draft → Option (List Json)
  | [] => some []
  | item :: rest => do
    let j ← select outer room s item
    let more ← selectAll outer room s rest
    return j :: more

def selectFront (outer : List (String × Schema)) (room : Nat) :
    List (String × Schema) → List Draft → Option (List Json)
  | _, [] => some []
  | [], _ :: _ => none
  | (_, s) :: fields, item :: rest => do
    let j ← select outer room s item
    let more ← selectFront outer room fields rest
    return j :: more

def selectNumbered (outer : List (String × Schema)) (room : Nat) (s : Schema) :
    List (Literal × Draft) → Option (List (String × Json))
  | [] => some []
  | (name, item) :: rest => do
    let name ← if name.plain then name.text? else none
    let j ← select outer room s item
    let more ← selectNumbered outer room s rest
    return (name, j) :: more

def selectFields (fields : List (String × Schema)) (room : Nat) :
    List (Literal × Draft) → Option (List (String × Json))
  | [] => some []
  | (name, item) :: rest => do
    let name ← name.text?
    let more ← selectFields fields room rest
    match fields.find? (·.1 == name) with
    | some (_, s) =>
      let j ← select fields room s item
      return (name, j) :: more
    | none => return more

end

end Draft

end Lamina.Json
