import Lamina.Table
import Lamina.Text.Search

/-! A file system: files with their times, directories and symbolic links below a root. Paths are
texts; relative ones start at the working directory, if there is one. -/

namespace Lamina

/-- A point in time, in seconds and nanoseconds from the epoch. -/
structure Time where
  secs : Int
  nanos : Nat
  deriving DecidableEq, Repr

/-- A modification time not before the epoch. -/
structure Stamp where
  secs : Nat
  nanos : Nat
  deriving DecidableEq, Repr

def Time.stamp? (t : Time) : Option Stamp :=
  match t.secs with
  | .ofNat secs => some ⟨secs, t.nanos⟩
  | .negSucc _ => none

/-- The content of a file; bytes that are no text stay bytes. -/
inductive Content
  | text (text : String)
  | bytes (bytes : List UInt8)
  deriving DecidableEq, Repr

def Content.ofBytes (bytes : List UInt8) : Content :=
  match String.fromUTF8? ⟨bytes.toArray⟩ with
  | some s => .text s
  | none => .bytes bytes

inductive Item
  | file (content : Content) (time : Time)
  | dir
  | link (target : String)
  deriving DecidableEq, Repr

abbrev Path := List String

def joinPath (base path : String) : String :=
  if Text.startsWith "/" path || base.isEmpty then path
  else if (Text.dropSuffix? "/" base).isSome then base ++ path
  else base ++ "/" ++ path

/-- Why a path leads to no file. -/
inductive PathFault
  | missing
  | notDirectory
  | isDirectory
  | nameTooLong
  | tooManyLinks
  deriving DecidableEq, Repr

def PathFault.text : PathFault → String
  | missing => "No such file or directory (os error 2)"
  | notDirectory => "Not a directory (os error 20)"
  | isDirectory => "Is a directory (os error 21)"
  | nameTooLong => "File name too long (os error 36)"
  | tooManyLinks => "Too many levels of symbolic links (os error 40)"

structure Disk where
  root : String
  workdir : Option Path
  items : Table Path Item
  /-- The time of files written by the program. -/
  clock : Time := ⟨0, 0⟩

namespace Disk

def empty (root : String) : Disk := { root, workdir := none, items := {} }

def names (text : String) : List String :=
  ((text.toList.splitOn '/').filter fun s => !s.isEmpty && s != ['.']).map String.ofList

def steps (text : String) : List String :=
  let parts := text.toList.splitOn '/'
  (parts.filter (!·.isEmpty)).map String.ofList ++
    if parts.getLast? == some [] then ["."] else []

def maxName : Nat := 255

def maxPath : Nat := 4095

def text (d : Disk) (p : Path) : String := d.root ++ String.join (p.map ("/" ++ ·))

def item? (d : Disk) (p : Path) : Option Item := if p.isEmpty then some .dir else d.items.get? p

/-- Whether a text can be that of a path: zero characters have no place in it. -/
def isPathText (text : String) : Bool := !text.toList.contains '\x00'

/-- Where a path text starts, given where relative ones do, and the steps from there. -/
def start? (d : Disk) (here : Option Path) (text : String) : Option (Path × List String) :=
  if text.isEmpty || !isPathText text then none
  else if text = d.root then some ([], [])
  else
    match (d.root ++ "/").toList.isPrefixOf? text.toList with
    | some rest => some ([], steps (String.ofList rest))
    | none => if Text.startsWith "/" text then none else here.map (·, steps text)

/-- Follows steps from a directory to something that exists. `jump` goes on where a link stands in
the way, from the directory it is in and with the steps that are left. -/
def followBy (d : Disk) (jump : Path → String → List String → Except PathFault Path)
    (here : Path) (way : List String) : Except PathFault Path :=
  match way with
  | [] => .ok here
  | name :: rest =>
    if name = "." then d.followBy jump here rest
    else if name = ".." then d.followBy jump here.dropLast rest
    else if maxName < name.utf8ByteSize then .error .nameTooLong
    else
      match d.item? (here ++ [name]) with
      | none => .error .missing
      | some .dir => d.followBy jump (here ++ [name]) rest
      | some (.file ..) => if rest.isEmpty then .ok (here ++ [name]) else .error .notDirectory
      | some (.link target) => jump here target rest

/-- Follows steps from a directory, through at most `links` links, to something that exists. -/
def follow (d : Disk) (links : Nat) : Path → List String → Except PathFault Path :=
  d.followBy fun here target rest =>
    match links with
    | 0 => .error .tooManyLinks
    | links + 1 =>
      match d.start? (some here) target with
      | none => .error .missing
      | some (base, more) => d.follow links base (more ++ rest)

def resolve (d : Disk) (text : String) : Except PathFault Path :=
  if maxPath < text.utf8ByteSize then .error .nameTooLong
  else
    match d.start? d.workdir text with
    | none => .error .missing
    | some (here, way) => d.follow 40 here way

def find? (d : Disk) (text : String) : Option Path := (d.resolve text).toOption

def itemAt? (d : Disk) (text : String) : Option Item := (d.find? text).bind d.item?

def isFile (d : Disk) (text : String) : Bool :=
  match d.itemAt? text with
  | some (.file ..) => true
  | _ => false

def isDir (d : Disk) (text : String) : Bool := d.itemAt? text == some .dir

def pathExists (d : Disk) (text : String) : Bool := (d.find? text).isSome

def readFile (d : Disk) (text : String) : Except String String :=
  match d.resolve text with
  | .error fault => .error fault.text
  | .ok p =>
    match d.item? p with
    | some (.file (.text content) _) => .ok content
    | some (.file (.bytes _) _) => .error "stream did not contain valid UTF-8"
    | some .dir => .error PathFault.isDirectory.text
    | _ => .error PathFault.missing.text

def stamp? (d : Disk) (text : String) : Option Stamp :=
  match d.itemAt? text with
  | some (.file _ time) => time.stamp?
  | some .dir => d.clock.stamp?
  | _ => none

def entries (d : Disk) (text : String) : List String :=
  match d.find? text with
  | none => []
  | some p => d.items.entries.filterMap fun (q, _) =>
      if q.length = p.length + 1 && q.take p.length = p then q.getLast? else none

/-- A change to the file system; each one happens or leaves everything as it was. -/
inductive Change
  | makeDir (dir : String)
  | replace (dir name : String) (text : String)
  | remove (dir name : String)
  deriving DecidableEq, Repr

/-- The place of `name` in a directory, unless a name or a text is too long for one. -/
def place? (d : Disk) (dir name : String) : Option Path := do
  let p ← d.find? dir
  match d.item? p with
  | some .dir =>
    if maxName < name.utf8ByteSize || maxPath < (joinPath dir name).utf8ByteSize ||
      !isPathText name then none else some (p ++ [name])
  | _ => none

/-- Makes the directories that are missing on the way from one; what is there must lead on. -/
def makeWay (d : Disk) (here : Path) : List String → Option Disk
  | [] => if d.item? here == some .dir then some d else none
  | step :: rest =>
    match d.follow 40 here [step] with
    | .ok p => if d.item? p == some .dir then d.makeWay p rest else none
    | .error .missing =>
      let p := here ++ [step]
      if (d.item? p).isSome then none
      else { d with items := d.items.set p .dir }.makeWay p rest
    | .error _ => none

def change? (d : Disk) : Change → Option Disk
  | .makeDir dir => do
    let (here, way) ← d.start? d.workdir dir
    if maxPath < dir.utf8ByteSize then none else d.makeWay here way
  | .replace dir name text => do
    let p ← d.place? dir name
    match d.item? p with
    | some .dir => none
    | _ => some { d with items := d.items.set p (.file (.text text) d.clock) }
  | .remove dir name => do
    let p ← d.place? dir name
    match d.item? p with
    | none | some .dir => none
    | some _ => some { d with items := d.items.erase p }

/-- Changes in order up to the first one that is not possible, and whether there is none. -/
def changeAll (d : Disk) : List Change → Bool × Disk
  | [] => (true, d)
  | change :: rest =>
    match d.change? change with
    | some d => d.changeAll rest
    | none => (false, d)

/-- Where the last of the steps from a directory stands, be there something or not. -/
def spot? (d : Disk) (here : Path) (way : List String) : Option Path := do
  let name ← way.getLast?
  let dir ← (d.follow 40 here way.dropLast).toOption
  if d.item? dir == some .dir then some (dir ++ [name]) else none

/-- Where steps from a directory lead a writer: through links to a file, be it there or not. -/
def target? (d : Disk) (here : Path) (way : List String) : Nat → Option Path
  | 0 => none
  | links + 1 => do
    let p ← d.spot? here way
    match d.item? p with
    | some .dir => none
    | some (.link target) =>
      let (base, more) ← d.start? (some p.dropLast) target
      d.target? base more links
    | _ => some p

/-- Puts a file or a link at a path below the root, with the directories above it; a file goes
where links at its path lead. -/
def put (d : Disk) (p : Path) (item : Item) : Disk :=
  let d := (d.makeWay [] p.dropLast).getD d
  let place :=
    match item with
    | .link _ => d.spot? [] p
    | _ => d.target? [] p 41
  match place with
  | some q => { d with items := d.items.set q item }
  | none => d

def leaves (d : Disk) : List Path :=
  (d.items.entries.filter fun (_, item) => item != .dir).map Prod.fst

def files (d : Disk) : List (Path × Content) :=
  d.items.entries.filterMap fun (p, item) =>
    match item with
    | .file content _ => some (p, content)
    | _ => none

end Disk

end Lamina
