import Lamina.Script.Value

/-! The fields of tables. Values at small integers are items of an array; all other fields are in
nodes, which are chained from the places that their keys are sent to. Both grow when a new key finds
no free node: then the array takes the most items of which it is more than half full. -/

namespace Lamina.Script

structure Node where
  /-- The key, or `nil` if the node has never been used. -/
  key : Value := .nil
  value : Value := .nil
  next? : Option Nat := none
  deriving Inhabited

structure Fields where
  items : Array Value := #[]
  /-- Where the length was found last, or else the number of items. -/
  limit : Nat := 0
  nodes : Array Node := #[]
  free : Nat := 0
  meta? : Option Nat := none
  isList : Bool := false
  deriving Inhabited

def isPowerOfTwo (n : Nat) : Bool := n &&& (n - 1) == 0

def doublings (n : Nat) : Nat := if n ≤ 1 then 0 else (n - 1).log2 + 1

namespace Fields

/-! ### Nodes -/

def floatHash (x : Float) : Nat :=
  let (m, e) := x.frExp
  match (integer? (m * 2147483648.0).floor).filter fits with
  | none => 0
  | some n =>
    let n := if m < 0.0 && Float.ofInt n != m * 2147483648.0 then n + 1 else n
    let u := ((e + n) % UInt32.size).toNat
    if u < UInt32.size / 2 then u else UInt32.size - 1 - u

def textHash (b : ByteArray) : UInt32 :=
  b.data.foldr (fun x h => h ^^^ ((h <<< 5) + (h >>> 2) + x.toUInt32)) b.size.toUInt32

def mainPlace (count : Nat) : Value → Nat
  | .number (.int n) => (n % UInt64.size).toNat % ((count - 1) ||| 1)
  | .number (.float x) => floatHash x % ((count - 1) ||| 1)
  | .bool b => if b then 1 % count else 0
  | .text b => (textHash b).toNat % count
  | .table place | .closure place => place % ((count - 1) ||| 1)
  | _ => 0

def findFrom (nodes : Array Node) (key : Value) : Nat → Nat → Option Nat
  | 0, _ => none
  | fuel + 1, i =>
    match nodes[i]? with
    | none => none
    | some node =>
      if node.key.same key then some i
      else
        match node.next? with
        | none => none
        | some j => findFrom nodes key fuel j

def node? (f : Fields) (key : Value) : Option Nat :=
  if f.nodes.isEmpty then none
  else findFrom f.nodes key f.nodes.size (mainPlace f.nodes.size key)

def freeBefore (nodes : Array Node) : Nat → Option Nat
  | 0 => none
  | i + 1 => if (nodes[i]?.map (·.key.isNil)).getD false then some i else freeBefore nodes i

def leadingTo (nodes : Array Node) (target : Nat) : Nat → Nat → Nat
  | 0, i => i
  | fuel + 1, i =>
    match nodes[i]?.bind (·.next?) with
    | some j => if j = target then i else leadingTo nodes target fuel j
    | none => i

/-- The fields with a new key in a node, and whether there was a free one. The key takes the place
it is sent to; what else is there moves, unless it belongs there. -/
def insert (f : Fields) (key value : Value) : Fields × Bool :=
  let count := f.nodes.size
  let place := mainPlace count key
  match f.nodes[place]? with
  | none => (f, false)
  | some there =>
    if there.value.isNil then
      ({ f with nodes := f.nodes.modify place fun n => { n with key, value } }, true)
    else
      match freeBefore f.nodes f.free with
      | none => (f, false)
      | some free =>
        let home := mainPlace count there.key
        if home = place then
          let nodes := f.nodes.setIfInBounds free { key, value, next? := there.next? }
          let nodes := nodes.modify place fun n => { n with next? := some free }
          ({ f with free, nodes }, true)
        else
          let before := leadingTo f.nodes place count home
          let nodes := f.nodes.modify before fun n => { n with next? := some free }
          let nodes := nodes.setIfInBounds free there
          let nodes := nodes.setIfInBounds place { key, value }
          ({ f with free, nodes }, true)

/-! ### Fields -/

def slot? (f : Fields) (key : Value) : Option Nat :=
  match key with
  | .number (.int n) => if 1 ≤ n && n ≤ f.items.size then some (n - 1).toNat else none
  | _ => none

def get (f : Fields) (key : Value) : Value :=
  let key := key.key
  match f.slot? key with
  | some i => f.items.getD i .nil
  | none => (((f.node? key).bind (f.nodes[·]?)).map (·.value)).getD .nil

/-- Whether a key is behind the limit, which then moves there when the field is used. -/
def isBehind (f : Fields) (key : Value) : Bool :=
  match key with
  | .number (.int n) => f.limit < n && n ≤ f.items.size
  | _ => false

def use (f : Fields) (key : Value) : Fields :=
  match key with
  | .number (.int n) => if f.isBehind key then { f with limit := n.toNat } else f
  | _ => f

@[noinline]
def setItem (f : Fields) (i : Nat) (value : Value) : Fields :=
  { f with items := f.items.setIfInBounds i value }

def put (f : Fields) (key value : Value) : Fields × Bool :=
  match f.slot? key with
  | some i => ((f.use key).setItem i value, true)
  | none =>
    match f.node? key with
    | some i => ({ f with nodes := f.nodes.modify i fun n => { n with value } }, true)
    | none => if value.isNil then (f, true) else f.insert key value

def resize (f : Fields) (items others : Nat) : Fields :=
  let count := if others = 0 then 0 else 1 <<< doublings others
  let empty : Fields :=
    { f with
      items := f.items.extract 0 items ++ Array.replicate (items - f.items.size) .nil
      limit := items
      nodes := Array.replicate count {}
      free := count }
  let moved := (f.items.toList.drop items).zipIdx.foldl
    (fun g (v, i) => (g.put (.int (items + i + 1)) v).1) empty
  f.nodes.foldl (fun g n => if n.value.isNil then g else (g.put n.key n.value).1) moved

def itemKey? : Value → Option Nat
  | .number (.int n) => if 1 ≤ n && n ≤ (UInt32.size / 2 : Nat) then some n.toNat else none
  | _ => none

/-- Of keys counted by the number of doublings to reach them: the size of the array, and how many of
them it holds. Half of the size is exceeded by the keys it holds. -/
def arraySize (counts : Array Nat) (total : Nat) : Nat × Nat :=
  go counts.size 0 0 (0, 0)
where
  go : Nat → Nat → Nat → Nat × Nat → Nat × Nat
    | 0, _, _, best => best
    | fuel + 1, i, held, best =>
      let size := 1 <<< i
      if total ≤ size / 2 then best
      else
        let held := held + counts.getD i 0
        go fuel (i + 1) held (if held > size / 2 then (size, held) else best)

def rehash (f : Fields) (key : Value) : Fields :=
  let count (counts : Array Nat) (n : Nat) : Array Nat := counts.modify (doublings n) (· + 1)
  let ofItems := f.items.foldl
    (fun (counts, i) v => (if v.isNil then counts else count counts (i + 1), i + 1))
    (Array.replicate 33 0, 0)
  let used := f.nodes.toList.filter fun n => !n.value.isNil
  let keys := (key :: used.map (·.key)).filterMap itemKey?
  let counts := keys.foldl count ofItems.1
  let present := ofItems.1.foldl (· + ·) 0
  let (items, held) := arraySize counts (present + keys.length)
  f.resize items (present + used.length + 1 - held)

def set (f : Fields) (key value : Value) : Fields :=
  let key := key.key
  let (f, done) := f.put key value
  if done then f else ((f.rehash key).put key value).1

def setItems (f : Fields) (start : Nat) (values : List Value) : Fields :=
  let last := start + values.length
  let f := if last > f.items.size then f.resize last f.nodes.size else f
  let put (items : Array Value) (entry : Value × Nat) : Array Value :=
    items.setIfInBounds (start + entry.2) entry.1
  { f with items := values.zipIdx.foldl put f.items }

def ofItems (items : Array Value) : Fields := { items, limit := items.size }

/-! ### Length -/

def border (items : Array Value) : Nat → Nat → Nat → Nat
  | 0, i, _ => i
  | fuel + 1, i, j =>
    if j - i ≤ 1 then i
    else
      let m := (i + j) / 2
      if (items.getD (m - 1) .nil).isNil then border items fuel i m else border items fuel m j

/-- A border among all fields, of which the one at `i` is there and the one at `j` is not. -/
def borderOfFields (f : Fields) : Nat → Nat → Nat → Nat
  | 0, i, _ => i
  | fuel + 1, i, j =>
    if j - i ≤ 1 then i
    else
      let m := (i + j) / 2
      if (f.get (.int m)).isNil then borderOfFields f fuel i m else borderOfFields f fuel m j

def borderBehind (f : Fields) : Nat → Nat → Nat
  | 0, j => j
  | fuel + 1, i =>
    let j := i * 2
    if j ≥ UInt64.size / 2 then borderOfFields f 64 i (UInt64.size / 2 - 1)
    else if (f.get (.int j)).isNil then borderOfFields f 64 i j
    else borderBehind f fuel j

/-- The length: the index of a field that no field follows. It is looked for where it was found
last. -/
def length (f : Fields) : Nat × Fields :=
  let size := f.items.size
  let absent (i : Nat) : Bool := (f.items.getD (i - 1) .nil).isNil
  let behind : Nat × Fields :=
    if f.nodes.isEmpty || (f.get (.int (size + 1))).isNil then (size, f)
    else (borderBehind f 64 (max size 1), f)
  if f.limit > 0 && absent f.limit then
    if f.limit ≥ 2 && !absent (f.limit - 1) then
      let n := f.limit - 1
      (n, if isPowerOfTwo size && !isPowerOfTwo n then { f with limit := n } else f)
    else
      let n := border f.items 64 0 f.limit
      (n, if isPowerOfTwo size && n > size / 2 then { f with limit := n } else f)
  else if f.limit != size then
    if absent (f.limit + 1) then (f.limit, f)
    else if absent size then
      let n := border f.items 64 f.limit size
      (n, { f with limit := n })
    else behind
  else behind

/-! ### Order -/

def fieldFrom (f : Fields) : Nat → Nat → Option (Value × Value)
  | 0, _ => none
  | fuel + 1, i =>
    let (key, value) :=
      match f.items[i]? with
      | some v => (Value.int (i + 1), v)
      | none =>
        let node := f.nodes.getD (i - f.items.size) {}
        (node.key, node.value)
    if value.isNil then fieldFrom f fuel (i + 1) else some (key, value)

/-- The field after a key, the first one after `nil`; nothing if there is no such key. -/
def next? (f : Fields) (key : Value) : Option (Option (Value × Value)) :=
  let total := f.items.size + f.nodes.size
  let key := key.key
  let start? :=
    match key with
    | .nil => some 0
    | key =>
      match f.slot? key with
      | some i => some (i + 1)
      | none => (f.node? key).map (f.items.size + · + 1)
  start?.map fun start => f.fieldFrom (total - start) start

def pairs (f : Fields) : List (Value × Value) :=
  let items := f.items.toList.zipIdx.map fun (v, i) => (Value.int (i + 1), v)
  (items ++ f.nodes.toList.map fun n => (n.key, n.value)).filter fun (_, v) => !v.isNil

end Fields

end Lamina.Script
