import Lamina.Disk
import Lamina.Loader

/-! Templates in directories: each namespace has one, and a template is a file with the given
extension below it. -/

namespace Lamina

structure Directories where
  spaces : Table String String
  extension : String
  deriving DecidableEq, Repr

namespace Directories

def locate (t : Directories) (d : Disk) (path : String) : Except Failure View :=
  let r := Reference.parse path t.extension
  match r.check path with
  | .error fault => .error (.loader fault)
  | .ok () =>
    match t.spaces.get? r.space with
    | none => .error (.loader (.undefinedNamespace r.space path))
    | some dir =>
      let file := joinPath dir (r.name ++ "." ++ t.extension)
      if d.isFile file then
        match d.find? file, d.find? dir with
        | some p, some q =>
          if q.isPrefixOf p then .ok ⟨d.text p, r⟩ else .error (.loader (.escapes path))
        | _, _ => .error (.loader (.escapes path))
      else .error (.loader (.notFound r.identity (some dir)))

def read (d : Disk) (view : View) : Except Failure String :=
  (d.readFile view.filename).mapError .input

/-- A file name before its last dot and what follows it; a dot in front does not count. -/
def splitExtension (name : String) : String × Option String :=
  let back := name.toList.reverse
  match back.dropWhile (· != '.') with
  | '.' :: stem =>
    if stem.isEmpty then (name, none)
    else (String.ofList stem.reverse, some (String.ofList (back.takeWhile (· != '.')).reverse))
  | _ => (name, none)

/-- The name that the stem of a template file is listed by: a lone dot has a second one. -/
def listedStem (stem : String) : String := if stem = "." then ".." else stem

/-- The templates in a directory and those below it, with `front` before their names. -/
def collect (t : Directories) (d : Disk) (space : String) : Nat → String → String → List String
  | 0, _, _ => []
  | fuel + 1, dir, front =>
    (d.entries dir).flatMap fun name =>
      let path := joinPath dir name
      if d.isDir path then collect t d space fuel path (front ++ name ++ "/")
      else
        match splitExtension name with
        | (stem, some extension) =>
          if extension = t.extension then [space ++ ":" ++ front ++ listedStem stem] else []
        | _ => []

def list (t : Directories) (d : Disk) : List String :=
  t.spaces.entries.flatMap fun (space, dir) =>
    if d.isDir dir then t.collect d space (41 * (d.items.length + 1)) dir "" else []

def loader (t : Directories) (d : Disk) : Loader := ⟨t.locate d, read d, .ok (t.list d)⟩

end Directories

/-- A set of templates. -/
inductive Library
  | memory (templates : Templates)
  | directories (directories : Directories)
  deriving DecidableEq, Repr

def Library.loader (l : Library) (d : Disk) : Loader :=
  match l with
  | memory templates => templates.loader
  | directories t => t.loader d

end Lamina
