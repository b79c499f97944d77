import Lamina.Failure
import Lamina.Text.Blank
import Lamina.Text.Search

/-! Views: the templates that references name. A reference is a name in a namespace; the namespace
and the file extension may be left out. -/

namespace Lamina

open Lamina.Text

def defaultNamespace : String := "default"

def defaultExtension : String := "stm"

structure Reference where
  space : String
  name : String
  deriving DecidableEq, Repr

namespace Reference

def identity (r : Reference) : String := r.space ++ ":" ++ r.name

def dropExtension (extension name : String) : String :=
  match (dropSuffix? extension name).bind (dropSuffix? ".") with
  | some stem => stem
  | none => name

def parse (path extension : String) : Reference :=
  let (space, name) :=
    match splitOnce ':' path with
    | some (space, name) => if space.isEmpty then (defaultNamespace, path) else (space, name)
    | none => (defaultNamespace, path)
  ⟨space, dropExtension extension (onChars (fun s => (trim s).dropWhile (· == '/')) name)⟩

def check (path : String) (r : Reference) : Except LoaderFault Unit :=
  if r.name.isEmpty then .error (.emptyName path)
  else if (r.name.toList.splitOn '/').any fun s => s == ".".toList || s == "..".toList || s.isEmpty
  then .error (.escapes path)
  else .ok ()

def ofSuffix (suffix : String) : String :=
  onChars (fun s => s.map fun c => if c = '.' then '/' else c) suffix

end Reference

/-- A located template. -/
structure View where
  filename : String
  reference : Reference
  deriving DecidableEq, Repr

def View.identity (v : View) : String := v.reference.identity

end Lamina
