import Lamina.Table

/-! Render contexts: named values a page varies by. -/

namespace Lamina

structure Context where
  values : Table String String
  deriving DecidableEq, Repr

namespace Context

def empty : Context := ⟨{}⟩

def set (c : Context) (name value : String) : Context := ⟨c.values.set name value⟩

def get? (c : Context) (name : String) : Option String := c.values.get? name

def ofPairs (pairs : List (String × String)) : Context := ⟨Table.ofPairs pairs⟩

def override (c : Context) (overrides : List (String × String)) : Context :=
  overrides.foldl (fun c (name, value) => c.set name value) c

def encodeChar (c : Char) : List Char :=
  if c = '%' then ['%', '2', '5']
  else if c = ',' then ['%', '2', 'C']
  else if c = '=' then ['%', '3', 'D']
  else [c]

def encode (part : String) : String := String.ofList (part.toList.flatMap encodeChar)

def id (c : Context) : String :=
  if c.values.isEmpty then "default"
  else ",".intercalate (c.values.map fun (name, value) => encode name ++ "=" ++ encode value)

end Context

end Lamina
