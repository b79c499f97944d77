import Lamina.Failure
import Lamina.Node

/-! Directives and their providers. A provider turns the directives it knows into script code; of
several providers that know a name the first one counts. -/

namespace Lamina

/-- A directive as it was called. -/
structure Call where
  name : String
  values : List String
  body : Option String
  origin : Origin
  deriving DecidableEq, Repr

/-- A family of directives. -/
structure Provider where
  names : List String
  expand : Call → Except CallFault String

/-- The providers in use, the first that knows a name first. -/
structure Directives where
  providers : List Provider

namespace Directives

/-- Every name some provider knows, in the order of their first mention. -/
def names (d : Directives) : List String :=
  (d.providers.flatMap Provider.names).foldl
    (fun seen name => if seen.contains name then seen else seen ++ [name]) []

def knows (d : Directives) (name : String) : Bool := d.providers.any (·.names.contains name)

def failure (call : Call) (fault : CallFault) : Failure :=
  .directive (.call call.name fault) call.origin.path call.origin.line

def expand (d : Directives) (call : Call) : Except Failure String :=
  match d.providers.find? (·.names.contains call.name) with
  | none => .error (failure call .undefined)
  | some provider => (provider.expand call).mapError (failure call)

end Directives

end Lamina
