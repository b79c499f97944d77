import Lamina.Cache.Entry

/-! Caches keep entries by key: not at all, the most recently used ones in memory, or in files of a
directory. -/

namespace Lamina

/-- Why a directory could not be read or written. -/
inductive CacheFault
  | input
  | metadata
  deriving DecidableEq, Repr

inductive Cache
  | none
  /-- At most `capacity` entries, the most recently used first. -/
  | memory (capacity : Nat) (entries : List Entry)
  | directory (dir : String)
  deriving DecidableEq, Repr

namespace Cache

def ofCapacity (capacity : Nat) : Cache := memory (max capacity 1) []

def safeChar (c : Char) : Char :=
  if c ∈ ['/', '\\', ':', '*', '?', '"', '<', '>', '|'] then '_' else c

def fileName (key suffix : String) : String := String.ofList (key.toList.map safeChar) ++ suffix

def sourceFile (key : String) : String := fileName key ".lua"

def metadataFile (key : String) : String := fileName key ".meta.json"

def readDirectory (dir : String) (d : Disk) (key : String) : Except CacheFault (Option Entry) :=
  let metadata := joinPath dir (metadataFile key)
  let source := joinPath dir (sourceFile key)
  if !d.isFile metadata || !d.isFile source then .ok Option.none
  else
    match d.readFile metadata with
    | .error _ => .error .input
    | .ok text =>
      match (Json.readPart Metadata.schema text).bind (Metadata.read? · "") with
      | Option.none => .error .metadata
      | some entry =>
        match d.readFile source with
        | .error _ => .error .input
        | .ok source => .ok (some { entry with source })

def read (c : Cache) (d : Disk) (key : String) : Except CacheFault (Option Entry) × Cache :=
  match c with
  | none => (.ok Option.none, c)
  | memory capacity entries =>
    match entries.find? (·.key == key) with
    | Option.none => (.ok Option.none, c)
    | some entry => (.ok (some entry), memory capacity (entry :: entries.filter (·.key != key)))
  | directory dir => (readDirectory dir d key, c)

def writeChanges (dir : String) (e : Entry) : List Disk.Change :=
  [.makeDir dir, .replace dir (sourceFile e.key) e.source,
    .replace dir (metadataFile e.key) (Metadata.ofEntry e).compact]

def write (c : Cache) (d : Disk) (e : Entry) : Except CacheFault Unit × Cache × Disk :=
  match c with
  | none => (.ok (), c, d)
  | memory capacity entries =>
    (.ok (), memory capacity ((e :: entries.filter (·.key != e.key)).take capacity), d)
  | directory dir =>
    let (ok, d) := d.changeAll (writeChanges dir e)
    (if ok then .ok () else .error .input, c, d)

/-- Removes those of the named files that are there, up to the first that cannot be removed. -/
def removeFiles (dir : String) (d : Disk) : List String → Bool × Disk
  | [] => (true, d)
  | name :: rest =>
    if d.pathExists (joinPath dir name) then
      match d.change? (.remove dir name) with
      | some d => removeFiles dir d rest
      | Option.none => (false, d)
    else removeFiles dir d rest

def delete (c : Cache) (d : Disk) (key : String) : Except CacheFault Unit × Cache × Disk :=
  match c with
  | none => (.ok (), c, d)
  | memory capacity entries => (.ok (), memory capacity (entries.filter (·.key != key)), d)
  | directory dir =>
    let (ok, d) := removeFiles dir d [metadataFile key, sourceFile key]
    (if ok then .ok () else .error .input, c, d)

/-- Whether there is an entry under `key` whose files are as they were. -/
def isFresh (c : Cache) (d : Disk) (key : String) : Bool × Cache :=
  let (found, c) := c.read d key
  match found with
  | .ok (some entry) => (entry.isFresh d, c)
  | _ => (false, c)

def load (c : Cache) (d : Disk) (r : Registry) (key : String) :
    Option Artifact × Cache × Registry :=
  let (found, c) := c.read d key
  match found with
  | .ok (some entry) =>
    if entry.isFresh d then
      let (artifact, r) := r.define entry.artifact
      (some artifact, c, r)
    else (Option.none, c, r)
  | _ => (Option.none, c, r)

end Cache

end Lamina
