import Lamina.Failure
import Lamina.Table
import Lamina.Walk

/-! A session is one build. It remembers the files consulted, the fragments resolved so far and
what was read; a failure leaves that in place. -/

namespace Lamina

/-- A visit of a recording visitor. -/
structure Visit where
  leaving : Bool
  kind : String
  name : String
  scopes : List Scope
  deriving DecidableEq, Repr

/-- A template entered or left by its resolution. -/
structure Passage where
  leaving : Bool
  identity : String
  deriving DecidableEq, Repr

structure Session where
  /-- The files consulted, each once, in the order they were met. -/
  paths : List String := []
  /-- The fragments resolved so far, by identity. -/
  fragments : List (String × Node) := []
  /-- The identities of the views read, in order. -/
  reads : List String := []
  /-- The visits of recording visitors. -/
  visits : List Visit := []
  /-- The templates entered and left, where resolution keeps its stack in the session. -/
  passages : List Passage := []

namespace Session

def consult (s : Session) (file : String) : Session :=
  if s.paths.contains file then s else { s with paths := s.paths ++ [file] }

def fragment? (s : Session) (identity : String) : Option Node :=
  (s.fragments.find? (·.1 == identity)).map (·.2)

def remember (s : Session) (identity : String) (fragment : Node) : Session :=
  { s with fragments := (identity, fragment) :: s.fragments }

def noteRead (s : Session) (identity : String) : Session :=
  { s with reads := s.reads ++ [identity] }

def noteVisit (s : Session) (visit : Visit) : Session :=
  { s with visits := s.visits ++ [visit] }

end Session

abbrev LoadM := ExceptT Failure (StateM Session)

/-- A name declared for a path, and the number of scopes around the declaration. -/
structure Alias where
  depth : Nat
  name : String
  path : String
  deriving DecidableEq, Repr

/-- A contribution to a stack. -/
structure Contribution where
  stack : String
  prepend : Bool
  nodes : List Node

/-- What the visitors of one walk keep between visits. -/
structure Notes where
  /-- The names declared so far, the latest first. -/
  aliases : List Alias := []
  /-- The contributions to stacks in the order the walk left them. -/
  contributions : List Contribution := []

abbrev WalkM := StateT Notes LoadM

/-- How visitors reach other templates: a fragment is resolved once, a load is not shared. The
origin is that of the reference. -/
structure Resolver where
  load : String → Origin → LoadM Node
  fragment : String → Origin → LoadM Node

/-- A visitor in the making: it is given the means to reach other templates. -/
abbrev Pass := Resolver → Visitor WalkM

namespace Visitor

def onEnter (enter : List Scope → (n : Node) → WalkM (Entered n)) : Visitor WalkM :=
  ⟨enter, fun _ n => pure (.keep n)⟩

def onLeave (leave : List Scope → Node → WalkM Left) : Visitor WalkM :=
  ⟨fun _ n => pure (.go n), leave⟩

end Visitor

end Lamina
