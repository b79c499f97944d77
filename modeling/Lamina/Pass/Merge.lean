import Lamina.Fillings
import Lamina.Session
import Lamina.View

/-! The passes that bring templates together. Elements that name a fragment are replaced by it;
a template that extends another one becomes that one with its slots filled. -/

namespace Lamina.Pass

def unmergeable {α : Type} (origin : Origin) (fault : MergeFault) : WalkM α :=
  throw (.merge fault origin.path origin.line)

def pathOf? (attrs : List (Attr Node)) : Option String :=
  (Attr.literal? "path" attrs).filter (!·.isEmpty)

/-- The last part of a path, which names it where no other name is given. -/
def lastPart (path : String) : String :=
  String.ofList ((path.toList.reverse.takeWhile
    fun c => !(c == '/' || c == ':' || c == '.')).reverse)

def declared? (attrs : List (Attr Node)) : Option (String × String) :=
  (pathOf? attrs).map fun path =>
    (((Attr.literal? "as" attrs).filter (!·.isEmpty)).getD (lastPart path), path)

def fragmentPath? (aliases : List Alias) (name : String) : Option String :=
  match Node.suffix? "include" name with
  | some suffix => some (Reference.ofSuffix suffix)
  | none => (aliases.find? (·.name == name)).map (·.path)

def splice (attrs : List (Attr Node)) (children : List Node) (reference : Origin)
    (fragment : Node) : List Node :=
  Node.fillAll (.ofElement attrs children) (Node.attachAll reference fragment.contents)

/-- Fragments are put in place of the elements that name them. A `use` element declares a name
for what follows it among its siblings and for everything below them. -/
def imports : Pass := fun resolver =>
  { enter := fun scopes n =>
      match n with
      | .tag name attrs children closing o => do
        if name = "use" then
          match declared? attrs with
          | none => unmergeable o .usePathMissing
          | some (name, path) =>
            modify fun notes =>
              { notes with aliases := ⟨scopes.length, name, path⟩ :: notes.aliases }
            return .replace []
        else
          match fragmentPath? (← get).aliases name with
          | none => return .go (.tag name attrs children closing o)
          | some path =>
            return .keep (.fragment path attrs children o)
              (by simp only [Node.weight]; omega) true
      | n => pure (.go n)
    leave := fun scopes n => do
      modify fun notes =>
        { notes with aliases := notes.aliases.filter (·.depth ≤ scopes.length) }
      match n with
      | .fragment path attrs children o =>
        let fragment ← resolver.fragment path o
        return .replace (splice attrs children o fragment)
      | n => return .keep n }

def isExtends (name : String) : Bool := (Node.suffix? "extends" name).isSome || name == "extends"

def extendsPath? (name : String) (attrs : List (Attr Node)) : Option String :=
  match Node.suffix? "extends" name with
  | some suffix => some (Reference.ofSuffix suffix)
  | none => pathOf? attrs

/-- The first element among the children that extends a template, and the other children. -/
def takeExtends : List Node → Option ((String × List (Attr Node) × Origin) × List Node)
  | [] => none
  | .tag name attrs children closing o :: rest =>
    if isExtends name then some ((name, attrs, o), rest)
    else (takeExtends rest).map fun (found, others) =>
      (found, .tag name attrs children closing o :: others)
  | node :: rest => (takeExtends rest).map fun (found, others) => (found, node :: others)

/-- Directives and script code of an extending template run before the extended one. -/
def isLeading : Node → Bool
  | .directive .. | .host .. => true
  | _ => false

def isPush : Node → Bool
  | .push .. => true
  | _ => false

/-- A template that extends another becomes that one with its slots filled. Outside of slots only
directives and script code are kept, in front, and contributions to stacks, behind. With `strict`
every filling needs a slot. -/
def extension (strict : Bool) : Pass := fun resolver => .onLeave fun scopes n =>
  match n with
  | .template children o =>
    if !scopes.isEmpty then return .keep (.template children o)
    else
      match takeExtends children with
      | none => return .keep (.template children o)
      | some ((name, attrs, reference), others) =>
        match extendsPath? name attrs with
        | none => unmergeable reference .extendsPathMissing
        | some path => do
          let parent ← resolver.load path reference
          let f := others.foldl Fillings.addBlock (.ofAttrs ["path"] attrs)
          let nodes := Node.attachAll reference parent.contents
          let used := Node.filledAll f nodes
          match if strict then f.keys.find? (!used.contains ·) else none with
          | some unknown => unmergeable reference (.undefinedBlock unknown path)
          | none =>
            return .keep (.template
              (others.filter isLeading ++ Node.fillAll f nodes ++ others.filter isPush) o)
  | n => return .keep n

def transform (strict : Bool) : List Pass := [imports, extension strict]

end Lamina.Pass
