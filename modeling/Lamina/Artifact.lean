import Lamina.Digest
import Lamina.SourceMap

/-! Artifacts: chunks under a key, identified by key and source. The registry keeps the first
artifact of every identifier for good, and for each key the one defined last. -/

namespace Lamina

/-- The length of a part as eight bytes, the least significant first, and the part. -/
def lengthPrefixed (part : String) : List UInt8 :=
  let bytes := part.toUTF8.toList
  (Digest.bigEndian 8 bytes.length).reverse ++ bytes

def fingerprint (space name contextId : String) : String :=
  Digest.hex (Digest.sha256 ([space, name, contextId].flatMap lengthPrefixed))

/-- Identifies an artifact: the start of its key and of its source's digest. -/
def artifactId (key source : String) : String :=
  String.ofList (key.toList.take 32) ++ "_" ++
    String.ofList ((Digest.ofText source).toList.take 12)

structure Artifact where
  key : String
  template : String
  source : String
  sourceMap : SourceMap
  dependencies : List String
  deriving DecidableEq, Repr

def Artifact.id (a : Artifact) : String := artifactId a.key a.source

structure Registry where
  /-- The artifacts, in the order of their definition. -/
  artifacts : List Artifact
  newest : List (String × String)
  deriving DecidableEq, Repr

namespace Registry

def empty : Registry := ⟨[], []⟩

def get? (r : Registry) (id : String) : Option Artifact := r.artifacts.find? (·.id == id)

def latest? (r : Registry) (key : String) : Option Artifact :=
  (r.newest.find? (·.1 == key)).bind fun (_, id) => r.get? id

def forget (r : Registry) (key : String) : Registry :=
  { r with newest := r.newest.filter (·.1 != key) }

/-- Defines an artifact; if its identifier is known, the one defined first stands. -/
def define (r : Registry) (a : Artifact) : Artifact × Registry :=
  let r := { r with newest := (a.key, a.id) :: r.newest.filter (·.1 != a.key) }
  match r.get? a.id with
  | some known => (known, r)
  | none => (a, { r with artifacts := r.artifacts ++ [a] })

def size (r : Registry) : Nat := r.artifacts.length

end Registry

end Lamina
