import Lamina.Origin
import Lamina.Snippet

/-! Everything that can go wrong, by cause. `Failure.text` is the one place where failures are
put into words; `Failure.originFile` and `Failure.originLine` say where they come from. -/

namespace Lamina

inductive LexFault
  | unterminatedComment
  | malformedClosing (name : String)
  | unterminatedTag (name : String)
  | unterminatedValue (quote : Char)
  | unexpectedChar (char : Char) (tag : String)
  | unterminatedHost
  | unterminatedNote
  | unterminatedEcho (escape : Bool)
  | unterminatedDirective (name : String)
  | stated (text : String)
  deriving DecidableEq, Repr

def LexFault.text : LexFault → String
  | unterminatedComment => "unterminated comment"
  | malformedClosing name => s!"malformed closing tag </{name}"
  | unterminatedTag name => s!"unterminated tag <{name}>"
  | unterminatedValue quote => s!"unterminated attribute value, missing {quote}"
  | unexpectedChar char tag => s!"unexpected character '{char}' in tag <{tag}>"
  | unterminatedHost => "unterminated <?lua block, missing ?>"
  | unterminatedNote => "unterminated comment, missing --\x7d\x7d"
  | unterminatedEcho true => "unterminated \x7b\x7b echo, missing \x7d\x7d"
  | unterminatedEcho false => "unterminated \x7b!! echo, missing !!\x7d"
  | unterminatedDirective name => s!"unterminated directive @{name}(, missing )"
  | stated text => text

inductive ParseFault
  | unexpected (text : String)
  | unexpectedInTag (text tag : String)
  | unexpectedInValue (text : String)
  | unterminatedTag (name : String)
  | unterminatedValue
  | unclosedTag (name : String)
  | unexpectedClosing (name : String) (expected : Option String)
  | malformedArguments (name reason : String)
  | undefinedValue (name : String)
  | attributeNameMissing
  | blockNameMissing
  | stackNameMissing (tag : String)
  | unknownStackOperation (operation : String)
  | emptyEcho
  | noRenderer (kind : String)
  | hostCode (text : String)
  | stated (text : String)
  deriving DecidableEq, Repr

def ParseFault.text : ParseFault → String
  | unexpected text => s!"unexpected `{text}`"
  | unexpectedInTag text tag => s!"unexpected `{text}` in tag <{tag}>"
  | unexpectedInValue text => s!"unexpected `{text}` in attribute value"
  | unterminatedTag name => s!"unterminated tag <{name}>"
  | unterminatedValue => "unterminated attribute value"
  | unclosedTag name => s!"unclosed tag <{name}>"
  | unexpectedClosing name (some expected) =>
    s!"unexpected closing tag </{name}>, expected </{expected}>"
  | unexpectedClosing name none => s!"unexpected closing tag </{name}>"
  | malformedArguments name reason => s!"malformed arguments for @{name}: {reason}"
  | undefinedValue name => s!"undefined context value `{name}`"
  | attributeNameMissing => "attribute name is missing"
  | blockNameMissing => "block name is missing"
  | stackNameMissing tag => s!"<{tag}> requires a literal name attribute"
  | unknownStackOperation operation => s!"unknown stack operation `{operation}`"
  | emptyEcho => "empty echo expression"
  | noRenderer kind => s!"no renderer for {kind} node"
  | hostCode text => s!"invalid host code: {text}"
  | stated text => text

inductive MergeFault
  | unresolved (path reason : String)
  | cyclic (chain : List String)
  | tooDeep (limit : Nat)
  | usePathMissing
  | extendsPathMissing
  | undefinedBlock (name parent : String)
  | unresolvedImport (path : String)
  | stated (text : String)
  deriving DecidableEq, Repr

def MergeFault.text : MergeFault → String
  | unresolved path reason => s!"unable to resolve `{path}`: {reason}"
  | cyclic chain => "cyclic reference: " ++ String.intercalate " -> " chain
  | tooDeep limit => s!"template nesting exceeds {limit} levels"
  | usePathMissing => "<use> requires a literal path attribute"
  | extendsPathMissing => "<extends> requires a literal path attribute"
  | undefinedBlock name parent => s!"block `{name}` is not defined by parent `{parent}`"
  | unresolvedImport path => s!"unresolved import `{path}`"
  | stated text => text

/-- Why a directive has no expansion. -/
inductive CallFault
  | undefined
  | required (what : String)
  | notVariable (value : String)
  | notLoop
  | tooManyVariables
  | twoValuesRequired
  | serviceRequired
  | oneValueRequired
  | notExpanded
  | nothingToShout
  deriving DecidableEq, Repr

def CallFault.text : CallFault → String
  | undefined => "undefined directive"
  | required what => s!"{what} is required"
  | notVariable value => s!"`{value}` is not a valid variable name"
  | notLoop => "expected `<expr> as <name>`"
  | tooManyVariables => "at most 2 loop variables are allowed"
  | twoValuesRequired => "exactly 2 values are required"
  | serviceRequired => "a service id is required"
  | oneValueRequired => "at least 1 value is required"
  | notExpanded => "directive was not expanded"
  | nothingToShout => "nothing to shout"

inductive DirectiveFault
  | call (name : String) (fault : CallFault)
  | stated (text : String)
  deriving DecidableEq, Repr

def DirectiveFault.text : DirectiveFault → String
  | call name fault => s!"@{name}: {fault.text}"
  | stated text => text

inductive LoaderFault
  | emptyName (path : String)
  | escapes (path : String)
  | undefinedNamespace (namespaceName path : String)
  | notFound (identity : String) (directory : Option String)
  | unreadable (identity : String)
  | stated (text : String)
  deriving DecidableEq, Repr

def LoaderFault.text : LoaderFault → String
  | emptyName path => s!"empty view name in `{path}`"
  | escapes path => s!"view `{path}` escapes its namespace directory"
  | undefinedNamespace space path => s!"undefined namespace `{space}` in `{path}`"
  | notFound identity none => s!"unable to locate view `{identity}`"
  | notFound identity (some directory) => s!"unable to locate view `{identity}` in {directory}"
  | unreadable identity => s!"unable to read view `{identity}`"
  | stated text => text

inductive ConfigFault
  | unknownProvider (name : String)
  | unknownProcessor (name : String)
  | depthRequired
  | extensionRequired
  | stated (text : String)
  deriving DecidableEq, Repr

def ConfigFault.text : ConfigFault → String
  | unknownProvider name => s!"unknown directive provider `{name}`"
  | unknownProcessor name => s!"unknown processor `{name}`"
  | depthRequired => "max_depth must be at least 1"
  | extensionRequired => "extension must not be empty"
  | stated text => text

inductive Failure
  | lex (fault : LexFault) (file : String) (line : Nat) (snippet : Option Snippet)
  | parse (fault : ParseFault) (file : String) (line : Nat) (snippet : Option Snippet)
  | merge (fault : MergeFault) (file : String) (line : Nat)
  | directive (fault : DirectiveFault) (file : String) (line : Nat)
  | compile (file : String) (cause : Failure)
  | render (template message : String) (frames : List Frame) (cause : String)
  | loader (fault : LoaderFault)
  | config (fault : ConfigFault)
  | script (text : String)
  | input (text : String)
  deriving DecidableEq, Repr

namespace Failure

def excerpt : Option Snippet → String
  | some snippet => "\n" ++ snippet.text
  | none => ""

def text : Failure → String
  | lex fault file line snippet =>
    s!"Lex error in {file}: {fault.text} at line {line}" ++ excerpt snippet
  | parse fault file line snippet =>
    s!"Parse error in {file}: {fault.text} at line {line}" ++ excerpt snippet
  | merge fault file line => s!"Merge error in {file}: {fault.text} at line {line}"
  | directive fault file line => s!"Directive error in {file}: {fault.text} at line {line}"
  | compile file cause => s!"Unable to compile {file}: " ++ cause.text
  | render template message frames _ =>
    s!"Render error in {template}: {message}" ++
      String.join (frames.map fun frame => "\n  at " ++ frame.text)
  | loader fault => "Loader error: " ++ fault.text
  | config fault => "Configuration error: " ++ fault.text
  | script text => "Lua error: " ++ text
  | input text => "IO error: " ++ text

def originFile : Failure → Option String
  | lex _ file _ _ | parse _ file _ _ | merge _ file _ | directive _ file _ | compile file _ =>
    some file
  | render _ _ frames _ => frames.head?.map Frame.file
  | loader _ | config _ | script _ | input _ => none

def originLine : Failure → Option Nat
  | lex _ _ line _ | parse _ _ line _ | merge _ _ line | directive _ _ line => some line
  | compile _ cause => cause.originLine
  | render _ _ frames _ => frames.head?.map Frame.line
  | loader _ | config _ | script _ | input _ => none

def frames : Failure → List Frame
  | render _ _ frames _ => frames
  | _ => []

/-- A failure met while compiling `requested`; a compile failure stays as it is. -/
def whileCompiling (requested : String) : Failure → Failure
  | compile file cause => compile file cause
  | failure => compile (failure.originFile.getD requested) failure

/-- The texts of the failures a failure was caused by, the nearest first. -/
def causes : Failure → List String
  | compile _ cause => cause.text :: cause.causes
  | render _ _ _ cause => [cause]
  | script text | input text => [text]
  | _ => []

end Failure

end Lamina
