import Lamina.Builder
import Lamina.Cache

/-! Settings of an engine, and their JSON form. Settings that are left out have defaults. -/

namespace Lamina

inductive CacheSettings
  | none
  | memory (capacity : Nat)
  | directory (path : String)
  deriving DecidableEq, Repr

def defaultCapacity : Nat := 100

structure Settings where
  directives : List String := Provider.builtinNames
  processors : List String := ["context"]
  preserveTags : List String := defaultPreserveTags
  strictBlocks : Bool := false
  maxDepth : Nat := defaultMaxDepth
  extension : String := defaultExtension
  cache : CacheSettings := .memory defaultCapacity
  deriving DecidableEq, Repr

namespace CacheSettings

open Json

def toJson : CacheSettings → Json
  | none => .obj [("type", .str "none")]
  | memory capacity => .obj [("type", .str "memory"), ("capacity", .int capacity)]
  | directory path => .obj [("type", .str "directory"), ("path", .str path)]

def ofKind? (kind : String) (rest : Json) : Option CacheSettings :=
  match kind with
  | "none" => (Record.of? [] rest).map fun _ => none
  | "memory" => do
    let r ← Record.of? ["capacity"] rest
    return memory (← r.withDefault "capacity" defaultCapacity (natBelow UInt64.size))
  | "directory" => do
    let r ← Record.of? ["path"] rest
    return directory (← r.need "path" str?)
  | _ => Option.none

def ofJson? : Json → Option CacheSettings
  | .obj members =>
    match members.filter (·.1 == "type") with
    | [(_, .str kind)] => ofKind? kind (.obj (members.filter (·.1 != "type")))
    | _ => Option.none
  | .arr (.str kind :: rest) => ofKind? kind (.arr rest)
  | _ => Option.none

def cache : CacheSettings → Cache
  | none => .none
  | memory capacity => .ofCapacity capacity
  | directory path => .directory path

end CacheSettings

namespace Settings

open Json

def toJson (s : Settings) : Json :=
  .obj [("directives", .arr (s.directives.map .str)), ("processors", .arr (s.processors.map .str)),
    ("preserve_tags", .arr (s.preserveTags.map .str)), ("strict_blocks", .bool s.strictBlocks),
    ("max_depth", .int s.maxDepth), ("extension", .str s.extension), ("cache", s.cache.toJson)]

def ofRecord? (record : List String → Json → Option Record) (j : Json) : Option Settings := do
  let r ← record ["directives", "processors", "preserve_tags", "strict_blocks", "max_depth",
    "extension", "cache"] j
  let d : Settings := {}
  return {
    directives := ← r.withDefault "directives" d.directives (listOf str?)
    processors := ← r.withDefault "processors" d.processors (listOf str?)
    preserveTags := ← r.withDefault "preserve_tags" d.preserveTags (listOf str?)
    strictBlocks := ← r.withDefault "strict_blocks" d.strictBlocks bool?
    maxDepth := ← r.withDefault "max_depth" d.maxDepth (natBelow UInt64.size)
    extension := ← r.withDefault "extension" d.extension str?
    cache := ← r.withDefault "cache" d.cache CacheSettings.ofJson? }

def ofJson? : Json → Option Settings := ofRecord? Record.of?

def bareExtension (s : Settings) : String := Text.onChars (·.dropWhile (· == '.')) s.extension

def check (s : Settings) : Except ConfigFault Unit :=
  if s.maxDepth = 0 then .error .depthRequired
  else if s.bareExtension.isEmpty then .error .extensionRequired
  else .ok ()

end Settings

end Lamina
