import Lamina.Artifact
import Lamina.Disk
import Lamina.Json.Printer
import Lamina.Json.Reader
import Lamina.Json.Record

/-! Cache entries: artifacts with the stamps of the files they depend on, and the text their
metadata is kept in. -/

namespace Lamina

structure Dependency where
  path : String
  stamp : Option Stamp
  deriving DecidableEq, Repr

def Dependency.current (d : Disk) (path : String) : Dependency := ⟨path, d.stamp? path⟩

structure Entry where
  key : String
  template : String
  source : String
  sourceMap : SourceMap
  dependencies : List Dependency
  deriving DecidableEq, Repr

namespace Entry

def ofArtifact (d : Disk) (a : Artifact) : Entry :=
  ⟨a.key, a.template, a.source, a.sourceMap, a.dependencies.map (.current d)⟩

def isFresh (d : Disk) (e : Entry) : Bool :=
  e.dependencies.all fun dependency => d.stamp? dependency.path == dependency.stamp

def artifact (e : Entry) : Artifact :=
  ⟨e.key, e.template, e.source, e.sourceMap, e.dependencies.map (·.path)⟩

end Entry

namespace Metadata

open Json

def grammarName : Grammar → String
  | .html => "Html"
  | .dynamic => "Dynamic"
  | .inline => "Inline"
  | .host => "Host"

def grammar? : Json → Option Grammar
  | .str "Html" | .obj [("Html", .null)] => some .html
  | .str "Dynamic" | .obj [("Dynamic", .null)] => some .dynamic
  | .str "Inline" | .obj [("Inline", .null)] => some .inline
  | .str "Host" | .obj [("Host", .null)] => some .host
  | _ => none

def ofSites (sites : List Site) : Json :=
  sites.foldr (fun site parent =>
    .obj [("file", .str site.path), ("line", .int site.line),
      ("grammar", .str (grammarName site.grammar)), ("label", .str site.label),
      ("parent", parent)]) .null

def site? (file line grammar label : Json) : Option Site := do
  let path ← file.str?
  let line ← natBelow UInt64.size line
  let grammar ← grammar? grammar
  let label ← label.str?
  return ⟨path, line, grammar, label⟩

mutual

def sites? : Json → Option (List Site)
  | .null => some []
  | .obj members => do
    let fields ← Record.known ["file", "line", "grammar", "label", "parent"] members
    let field (name : String) : Option Json := (fields.find? (·.1 == name)).map (·.2)
    let site ← site? (← field "file") (← field "line") (← field "grammar") (← field "label")
    let via ← parentSites? members
    return site :: via
  | .arr [file, line, grammar, label, parent] => do
    let site ← site? file line grammar label
    let via ← sites? parent
    return site :: via
  | _ => none

def parentSites? : List (String × Json) → Option (List Site)
  | [] => some []
  | (name, value) :: rest => if name = "parent" then sites? value else parentSites? rest

end

def origin? (j : Json) : Option Origin :=
  match sites? j with
  | some (site :: via) => some ⟨site, via⟩
  | _ => none

def ofSourceMap (m : SourceMap) : Json :=
  .obj [("paths", .arr (m.paths.map .str)),
    ("lines", .obj (m.lines.map fun (line, o) => (toString line, ofSites o.sites)))]

def lineOf? (name : String) : Option Nat :=
  match number? name.toList with
  | some (some j) => natBelow UInt64.size j
  | _ => none

def lines? : Json → Option (Table Nat Origin)
  | .obj members => do
    let pairs ← members.mapM fun (name, j) => do return (← lineOf? name, ← origin? j)
    return .ofPairs pairs
  | _ => none

def sourceMap? (j : Json) : Option SourceMap := do
  let r ← Record.of? ["paths", "lines"] j
  let paths ← r.need "paths" (listOf str?)
  let lines ← r.need "lines" lines?
  return ⟨paths, lines⟩

def ofStamp (s : Stamp) : Json := .obj [("secs", .int s.secs), ("nanos", .int s.nanos)]

def stamp? (j : Json) : Option Stamp := do
  let r ← Record.of? ["secs", "nanos"] j
  let secs ← r.need "secs" (natBelow UInt64.size)
  let nanos ← r.need "nanos" (natBelow UInt32.size)
  return ⟨secs, nanos⟩

def ofDependency (d : Dependency) : Json :=
  .obj [("path", .str d.path), ("stamp", d.stamp.elim .null ofStamp)]

def dependency? (j : Json) : Option Dependency := do
  let r ← Record.of? ["path", "stamp"] j
  let path ← r.need "path" str?
  let stamp ← r.optional "stamp" stamp?
  return ⟨path, stamp⟩

def ofEntry (e : Entry) : Json :=
  .obj [("key", .str e.key), ("template", .str e.template), ("source_map", ofSourceMap e.sourceMap),
    ("dependencies", .arr (e.dependencies.map ofDependency))]

def schema : Schema :=
  .record [("key", .whole), ("template", .whole),
    ("source_map", .record [("paths", .whole),
      ("lines", .numbered (.record [("file", .whole), ("line", .whole), ("grammar", .whole),
        ("label", .whole), ("parent", .again)]))]),
    ("dependencies", .list (.record [("path", .whole),
      ("stamp", .record [("secs", .whole), ("nanos", .whole)])]))]

def read? (j : Json) (source : String) : Option Entry := do
  let r ← Record.of? ["key", "template", "source_map", "dependencies"] j
  let key ← r.need "key" str?
  let template ← r.need "template" str?
  let sourceMap ← r.need "source_map" sourceMap?
  let dependencies ← r.need "dependencies" (listOf dependency?)
  return ⟨key, template, source, sourceMap, dependencies⟩

end Metadata

end Lamina
