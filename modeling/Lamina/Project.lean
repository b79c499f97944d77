import Lamina.Engine
import Lamina.Toml

/-! Projects: a file in TOML says where the templates are, how the engine is set up and which
context pages have. Relative paths start at the directory of the file. -/

namespace Lamina

structure Project where
  name : String := "unnamed"
  root : String := "views"
  namespaces : Table String String := {}
  settings : Settings := {}
  context : Table String String := {}
  baseDir : String := "."

namespace Project

open Json

def texts? : Json → Option (Table String String)
  | .obj members => do
    let pairs ← members.mapM fun ((name, j) : String × Json) => j.str?.map ((name, ·))
    return Table.ofPairs pairs
  | _ => none

def ofJson? (j : Json) : Option Project := do
  let r ← Record.ofFront? ["project", "views", "engine", "context"] j
  let project ← r.withDefault "project" ⟨[], false⟩ (Record.ofFront? ["name"])
  let views ← r.withDefault "views" ⟨[], false⟩ (Record.ofFront? ["root", "namespaces"])
  return {
    name := ← project.withDefault "name" "unnamed" str?
    root := ← views.withDefault "root" "views" str?
    namespaces := ← views.withDefault "namespaces" {} texts?
    settings := ← r.withDefault "engine" {} (Settings.ofRecord? Record.ofFront?)
    context := ← r.withDefault "context" {} texts? }

def ofToml? (text : String) : Option Project := (Toml.read text).bind ofJson?

def resolve (p : Project) (path : String) : String := joinPath p.baseDir path

def directories (p : Project) : Directories where
  spaces := p.namespaces.entries.foldl (fun t (name, dir) => t.set name (p.resolve dir))
    (.single defaultNamespace (p.resolve p.root))
  extension := p.settings.bareExtension

def engine (p : Project) : Except Failure Engine :=
  let cache :=
    match p.settings.cache with
    | .directory path => .directory (p.resolve path)
    | cache => cache
  { p.settings with cache }.engine (.directories p.directories) {}

def renderContext (p : Project) (overrides : List (String × String)) : Context :=
  (Context.mk p.context).override overrides

/-- The directory part of a path: what is before its last name. Empty parts and single dots at the
end of either do not count, but one in front is kept. -/
def parentDir (path : String) : String :=
  let idle (part : List Char) : Bool := part.isEmpty || part == ['.']
  match path.toList.splitOn '/' with
  | [] => "."
  | first :: rest =>
    match rest.reverse.dropWhile idle with
    | [] => "."
    | _ :: back =>
      let dir := "/".intercalate ((first :: (back.dropWhile idle).reverse).map String.ofList)
      if dir.isEmpty then "/" else dir

end Project

end Lamina
