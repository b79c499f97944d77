import Lamina.Toml.Value

/-! TOML documents. A document is read line by line into tables, which may each be defined once;
its value is a JSON object. -/

namespace Lamina.Toml

open Lamina.Json

/-- What a key stands for while a document is read. A table is implicit if only its subtables were
named so far, and dotted if keys with dots made it. -/
inductive Item
  | value (j : Json)
  | table (items : List (String × Item)) (implicit dotted : Bool)
  | tables (list : List Item)

namespace Item

def made (dotted : Bool) : Item := table [] true dotted

def alter (key : String) (fresh : Item) (f : Item → Option Item) :
    List (String × Item) → Option (List (String × Item))
  | [] => (f fresh).map fun item => [(key, item)]
  | (k, item) :: rest =>
    if k = key then (f item).map fun item => (k, item) :: rest
    else (alter key fresh f rest).map ((k, item) :: ·)

def alterLast (f : Item → Option Item) : List Item → Option (List Item)
  | [] => none
  | [item] => (f item).map ([·])
  | item :: rest => (alterLast f rest).map (item :: ·)

/-- The table at the end of a path changed. Tables on the way are made where they are missing;
keys with dots do not lead into tables that were defined by their own header. -/
def within (dotted : Bool) (f : Item → Option Item) : List String → Item → Option Item
  | [], item => f item
  | key :: path, table items implicit d =>
    (alter key (made dotted) (fun item =>
      match item with
      | value _ => none
      | tables list => (alterLast (within dotted f path) list).map tables
      | table items implicit d =>
        if dotted && !implicit then none
        else within dotted f path (table items implicit d)) items).map (table · implicit d)
  | _ :: _, _ => none

def add (viaDots : Bool) (key : String) (j : Json) : Item → Option Item
  | table items implicit dotted =>
    if dotted == viaDots && !(items.any (·.1 == key)) then
      some (table (items ++ [(key, value j)]) implicit dotted)
    else none
  | _ => none

def addPath (path : List String) (j : Json) (t : Item) : Option Item :=
  match path.getLast? with
  | none => none
  | some key => within true (add (path.length > 1) key j) path.dropLast t

def define (key : String) : Item → Option Item
  | table items implicit dotted =>
    (alter key (made false) (fun item =>
      match item with
      | table inner true false => some (table inner false false)
      | _ => none) items).map (table · implicit dotted)
  | _ => none

def defineNext (key : String) : Item → Option Item
  | table items implicit dotted =>
    (alter key (tables []) (fun item =>
      match item with
      | tables list => some (tables (list ++ [table [] false false]))
      | _ => none) items).map (table · implicit dotted)
  | _ => none

mutual

def toJson : Item → Json
  | value j => j
  | table items _ _ => .obj (membersJson items)
  | tables list => .arr (listJson list)

def membersJson : List (String × Item) → List (String × Json)
  | [] => []
  | (key, item) :: rest => (key, toJson item) :: membersJson rest

def listJson : List Item → List Json
  | [] => []
  | item :: rest => toJson item :: listJson rest

end

end Item

mutual

def value? : Nat → Nat → List Char → Option (Json × List Char)
  | 0, _, _ => none
  | fuel + 1, room, s =>
    match s with
    | '[' :: s => if room = 0 then none else items? fuel (room - 1) s []
    | '{' :: s =>
      if room = 0 then none
      else
        match dropSpace s with
        | '}' :: rest => some (.obj [], rest)
        | s => members? fuel (room - 1) s (.table [] false false)
    | '"' :: _ | '\'' :: _ => (string? true s).map fun (text, rest) => (.str text, rest)
    | s => scalar? s

def items? : Nat → Nat → List Char → List Json → Option (Json × List Char)
  | 0, _, _, _ => none
  | fuel + 1, room, s, sofar => do
    match ← dropLines s with
    | ']' :: rest => some (.arr sofar.reverse, rest)
    | s =>
      let (j, rest) ← value? fuel room s
      match ← dropLines rest with
      | ',' :: rest => items? fuel room rest (j :: sofar)
      | ']' :: rest => some (.arr (j :: sofar).reverse, rest)
      | _ => none

def members? : Nat → Nat → List Char → Item → Option (Json × List Char)
  | 0, _, _, _ => none
  | fuel + 1, room, s, t => do
    let (path, rest) ← key? s
    let rest ← ['='].isPrefixOf? rest
    let (j, rest) ← value? fuel room (dropSpace rest)
    let t ← t.addPath path j
    match dropSpace rest with
    | ',' :: rest => members? fuel room rest t
    | '}' :: rest => some (t.toJson, rest)
    | _ => none

end

/-- The document so far, and the path of the table that keys go into. -/
structure Document where
  root : Item
  header : List String

def expression (doc : Document) (s : List Char) : Option (Document × List Char) :=
  match s with
  | '[' :: '[' :: s => do
    let (path, rest) ← key? s
    let rest ← [']', ']'].isPrefixOf? rest
    let key ← path.getLast?
    let root ← doc.root.within false (Item.defineNext key) path.dropLast
    return (⟨root, path⟩, rest)
  | '[' :: s => do
    let (path, rest) ← key? s
    let rest ← [']'].isPrefixOf? rest
    let key ← path.getLast?
    let root ← doc.root.within false (Item.define key) path.dropLast
    return (⟨root, path⟩, rest)
  | s => do
    let (path, rest) ← key? s
    let rest ← ['='].isPrefixOf? rest
    let (j, rest) ← value? s.length maxDepth (dropSpace rest)
    let root ← doc.root.within false (Item.addPath path j) doc.header
    return (⟨root, doc.header⟩, rest)

def lines (doc : Document) : Nat → List Char → Option Document
  | 0, _ => none
  | fuel + 1, s => do
    match dropSpace s with
    | [] => some doc
    | s =>
      let (doc, rest) ←
        if s.head? == some '#' || (newline? s).isSome then some (doc, s) else expression doc s
      match ← dropComment (dropSpace rest) with
      | [] => some doc
      | rest => lines doc fuel (← newline? rest)

/-- The value of a document; a byte order mark before it does not count. -/
def read (text : String) : Option Json :=
  let s := text.toList
  let s := if s.head? == some '\uFEFF' then s.drop 1 else s
  (lines ⟨.table [] false false, []⟩ (s.length + 1) s).map (·.root.toJson)

end Lamina.Toml
