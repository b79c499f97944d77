import Lamina.Project

/-! The commands of the program: each works on the files of a project and says what it did, or why
it failed. -/

namespace Lamina

/-- Why a command failed. -/
inductive CommandFault
  | failure (f : Failure)
  | notPair (text : String)
  | dataTwice
  | dataUnreadable (file reason : String)
  | dataInvalid
  | dataNotObject
  | projectUnreadable (reason : String)
  | projectInvalid
  | templatesFailed (failed total : Nat)
  deriving DecidableEq, Repr

namespace CommandFault

def text : CommandFault → String
  | failure f => f.text
  | notPair text => s!"invalid context value `{text}`, expected name=value"
  | dataTwice => "--data and --json are mutually exclusive"
  | dataUnreadable file _ => s!"reading {file}"
  | dataInvalid => "render data is not valid JSON"
  | dataNotObject => "render data must be a JSON object"
  | projectUnreadable reason => reason
  | projectInvalid => "TOML parse error"
  | templatesFailed failed total => s!"{failed} of {total} template(s) failed to compile"

def causes : CommandFault → List String
  | failure f => f.causes
  | dataUnreadable _ reason => [reason]
  | dataInvalid => ["invalid JSON"]
  | _ => []

/-- A cause under its heading; the lines after its first one are indented like it. -/
def indent (first rest : String) (cause : String) : String :=
  first ++ ("\n" ++ rest).intercalate
    ((cause.toList.splitOn '\n').map String.ofList)

/-- The report of a failure: its text and what caused it. Several causes are numbered. -/
def report (f : CommandFault) : String :=
  let causes :=
    match f.causes with
    | [] => ""
    | [cause] => "\n\nCaused by:\n" ++ indent "    " "    " cause
    | causes =>
      "\n\nCaused by:" ++ String.join (causes.zipIdx.map fun (cause, n) =>
        "\n" ++ indent (numbered n) "       " cause)
  "Error: " ++ f.text ++ causes ++ "\n"
where
  numbered (n : Nat) : String :=
    let digits := toString n
    String.ofList (List.replicate (5 - digits.length) ' ') ++ digits ++ ": "

end CommandFault

/-- What a command printed and its exit code. A summary is a last line of output to which the time
taken can be added. -/
structure Outcome where
  out : String := ""
  summary : Option String := none
  err : String := ""
  exit : Nat := 0
  deriving DecidableEq, Repr

namespace Outcome

def stdout (o : Outcome) : String :=
  o.out ++ (match o.summary with
    | some line => line ++ "\n"
    | none => "")

def failed (f : CommandFault) : Outcome := { err := f.report, exit := 1 }

end Outcome

inductive Command
  /-- Compiles templates, all if none are given, and prints their sources on demand. -/
  | compile (templates : List String) (emit : Bool)
  | render (template : String) (dataFile json : Option String)
  | list
  /-- Drops what is kept of templates, of all if none are given. -/
  | reset (templates : List String)
  deriving DecidableEq, Repr

/-- A command with the options all commands have. -/
structure Invocation where
  command : Command
  config : String
  context : List String
  deriving DecidableEq, Repr

namespace Command

def contextPairs (texts : List String) : Except CommandFault (List (String × String)) :=
  texts.mapM fun text =>
    match Text.splitOnce '=' text with
    | some (name, value) =>
      let name := Text.onChars Text.trim name
      if name.isEmpty then .error (.notPair text) else .ok (name, value)
    | none => .error (.notPair text)

def parseData (text : String) : Except CommandFault Json :=
  match Json.read text with
  | none => .error .dataInvalid
  | some (.obj members) => .ok (Json.obj members).sorted
  | some _ => .error .dataNotObject

def loadData (d : Disk) (file json : Option String) : Except CommandFault Json :=
  match file, json with
  | some _, some _ => .error .dataTwice
  | some file, none =>
    match d.readFile file with
    | .ok text => parseData text
    | .error reason => .error (.dataUnreadable file reason)
  | none, some text => parseData text
  | none, none => .ok (.obj [])

def loadProject (d : Disk) (file : String) : Except CommandFault Project :=
  let baseDir := Project.parentDir file
  if d.pathExists file then
    match d.readFile file with
    | .error reason => .error (.projectUnreadable reason)
    | .ok text =>
      match Project.ofToml? text with
      | some project => .ok { project with baseDir }
      | none => .error .projectInvalid
  else .ok { baseDir }

def chosen (e : Engine) (d : Disk) (templates : List String) : Except CommandFault (List String) :=
  if templates.isEmpty then (e.list d).mapError .failure else .ok templates

/-- The templates compiled in order: what was printed, the number of failures, and the files
then. -/
def compileAll (context : Context) (emit : Bool) :
    List String → Engine → Disk → String × String × Nat × Disk
  | [], _, d => ("", "", 0, d)
  | template :: rest, e, d =>
    let (compiled, e, d) := e.compile d template context
    let (out, err, failed, d) := compileAll context emit rest e d
    match compiled with
    | .ok artifact =>
      let source := if emit then artifact.source ++ "\n" else ""
      (s!"✓ {template} ({artifact.id})\n" ++ source ++ out, err, failed, d)
    | .error failure => (out, s!"✗ {template}\n  " ++ failure.text ++ "\n" ++ err, failed + 1, d)

def resetAll (context : Context) : List String → Engine → Disk → String → Outcome × Disk
  | [], _, d, out => ({ out }, d)
  | template :: rest, e, d, out =>
    match e.reset d template context with
    | (.ok (), e, d) => resetAll context rest e d (out ++ s!"reset {template}\n")
    | (.error failure, _, d) => ({ Outcome.failed (.failure failure) with out }, d)

def run (c : Command) (p : Project) (context : List (String × String)) (d : Disk) :
    Outcome × Disk :=
  let refused (fault : CommandFault) : Outcome × Disk := (.failed fault, d)
  let engine := p.engine.mapError CommandFault.failure
  let context := p.renderContext context
  match c with
  | .compile templates emit =>
    match engine.bind fun e => (chosen e d templates).map (e, ·) with
    | .error fault => refused fault
    | .ok (e, templates) =>
      let (out, err, failed, d) := compileAll context emit templates e d
      let compiled := templates.length - failed
      let outcome : Outcome := { out, err, summary := some s!"Compiled {compiled} template(s)" }
      if failed = 0 then (outcome, d)
      else
        let fault := CommandFault.templatesFailed failed templates.length
        ({ outcome with err := err ++ fault.report, exit := 1 }, d)
  | .render template file json =>
    match loadData d file json with
    | .error fault => refused fault
    | .ok data =>
      match engine with
      | .error fault => refused fault
      | .ok e =>
        match e.render d template context data with
        | (.ok html, _, d) => ({ out := html ++ "\n" }, d)
        | (.error failure, _, d) => (.failed (.failure failure), d)
  | .list =>
    match engine.bind fun e => chosen e d [] with
    | .error fault => refused fault
    | .ok templates => ({ out := String.join (templates.map (· ++ "\n")) }, d)
  | .reset templates =>
    match engine.bind fun e => (chosen e d templates).map (e, ·) with
    | .error fault => refused fault
    | .ok (e, templates) => resetAll context templates e d ""

end Command

/-- Runs an invocation: the project file is read first, then the pairs of the context. -/
def Invocation.run (i : Invocation) (d : Disk) : Outcome × Disk :=
  match Command.loadProject d i.config with
  | .error fault => (.failed fault, d)
  | .ok project =>
    match Command.contextPairs i.context with
    | .error fault => (.failed fault, d)
    | .ok context => i.command.run project context d

end Lamina
