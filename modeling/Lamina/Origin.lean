/-! Places in templates. A site is one place; an origin is the site of a construct followed by the
references that pulled it into another template. -/

namespace Lamina

/-- The sublanguages a template mixes. -/
inductive Grammar
  | html
  | dynamic
  | inline
  | host
  deriving DecidableEq, Repr

def Grammar.name : Grammar → String
  | .html => "html"
  | .dynamic => "dynamic"
  | .inline => "inline"
  | .host => "host"

structure Site where
  path : String
  line : Nat
  grammar : Grammar
  label : String
  deriving DecidableEq, Repr

/-- `via` lists the referencing elements, the nearest first. -/
structure Origin where
  site : Site
  via : List Site := []
  deriving DecidableEq, Repr

namespace Origin

def of (path : String) (line : Nat) (grammar : Grammar) (label : String) : Origin :=
  ⟨⟨path, line, grammar, label⟩, []⟩

def path (o : Origin) : String := o.site.path

def line (o : Origin) : Nat := o.site.line

def attach (o reference : Origin) : Origin :=
  { o with via := o.via ++ reference.site :: reference.via }

def down (o : Origin) (n : Nat) : Origin :=
  { o with site := { o.site with line := o.site.line + n } }

def sites (o : Origin) : List Site := o.site :: o.via

end Origin

/-- One template location that a failure leads to. -/
structure Frame where
  file : String
  line : Nat
  label : String
  deriving DecidableEq, Repr

def Frame.text (f : Frame) : String := s!"{f.file}:{f.line} ({f.label})"

end Lamina
