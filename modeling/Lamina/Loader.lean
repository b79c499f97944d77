import Lamina.Table
import Lamina.View

/-! Loaders find, read and list templates. -/

namespace Lamina

/-- Where templates come from. -/
structure Loader where
  locate : String → Except Failure View
  read : View → Except Failure String
  list : Except Failure (List String)

abbrev Templates := Table String String

namespace Templates

def add (t : Templates) (path source : String) : Templates :=
  t.set (Reference.parse path defaultExtension).identity source

def ofPairs (pairs : List (String × String)) : Templates :=
  pairs.foldl (fun t (path, source) => add t path source) {}

def locate (t : Templates) (path : String) : Except Failure View :=
  let r := Reference.parse path defaultExtension
  match r.check path with
  | .error fault => .error (.loader fault)
  | .ok () =>
    if t.contains r.identity then
      .ok ⟨r.space ++ "/" ++ r.name ++ "." ++ defaultExtension, r⟩
    else .error (.loader (.notFound r.identity none))

def read (t : Templates) (view : View) : Except Failure String :=
  match t.get? view.identity with
  | some source => .ok source
  | none => .error (.loader (.unreadable view.identity))

def loader (t : Templates) : Loader := ⟨locate t, read t, .ok t.keys⟩

end Templates

end Lamina
