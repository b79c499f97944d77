import Lamina.Json

/-! Records in JSON: an object with the fields of the record, in any order and perhaps with others,
or an array with the fields in their order. -/

namespace Lamina.Json

/-- The fields of a record that are there; in an array they stand in order. -/
structure Record where
  fields : List (String × Json)
  positional : Bool

namespace Record

def known (names : List String) (members : List (String × Json)) : Option (List (String × Json)) :=
  let fields := members.filter fun (name, _) => names.contains name
  if (fields.map Prod.fst).Nodup then some fields else none

def of? (names : List String) : Json → Option Record
  | .obj members => (known names members).map (⟨·, false⟩)
  | .arr items => if items.length ≤ names.length then some ⟨names.zip items, true⟩ else none
  | _ => none

def ofFront? (names : List String) : Json → Option Record
  | .arr items => some ⟨names.zip items, true⟩
  | j => of? names j

def find? (r : Record) (name : String) : Option Json :=
  (r.fields.find? (·.1 == name)).map (·.2)

def need {α : Type} (r : Record) (name : String) (decode : Json → Option α) : Option α :=
  (r.find? name).bind decode

def optional {α : Type} (r : Record) (name : String) (decode : Json → Option α) :
    Option (Option α) :=
  match r.find? name with
  | none => if r.positional then none else some none
  | some .null => some none
  | some j => (decode j).map some

def withDefault {α : Type} (r : Record) (name : String) (value : α) (decode : Json → Option α) :
    Option α :=
  match r.find? name with
  | none => some value
  | some j => decode j

end Record

def listOf {α : Type} (decode : Json → Option α) : Json → Option (List α)
  | .arr items => items.mapM decode
  | _ => none

def natBelow (bound : Nat) : Json → Option Nat
  | .int (.ofNat n) => if n < bound then some n else none
  | _ => none

end Lamina.Json
