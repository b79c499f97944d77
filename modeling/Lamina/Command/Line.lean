import Lamina.Command

/-! Command lines. Options that take a value have it in the next argument or behind an equals sign;
those of all commands may stand before or after the name of the command, where the ones after it
win. -/

namespace Lamina.CommandLine

/-- What a command line asks for. -/
inductive Request
  | run (i : Invocation)
  | say (text : String)
  | misuse (message : String)
  deriving DecidableEq, Repr

/-- An option: its names, what it is for, the name of its value if it takes one, and whether it may
be given again or be empty. -/
structure Flag where
  name : String
  short : Option Char := none
  summary : String
  value? : Option String := none
  repeats : Bool := false
  mayBeEmpty : Bool := true

def Flag.takesValue (o : Flag) : Bool := o.value?.isSome

def globalOptions : List Flag :=
  [{ name := "log-level", value? := some "LOG_LEVEL",
     summary := "Log level: error, warn, info, debug, trace [default: warn]" },
   { name := "config", short := some 'c', value? := some "CONFIG", mayBeEmpty := false,
     summary := "Project configuration file [default: stratum.toml]" },
   { name := "context", value? := some "CONTEXT", repeats := true,
     summary := "Render context value as name=value (repeatable)" }]

inductive Verb
  | compile
  | render
  | list
  | reset
  deriving DecidableEq, Repr

namespace Verb

def all : List Verb := [compile, render, list, reset]

def name : Verb → String
  | compile => "compile"
  | render => "render"
  | list => "list"
  | reset => "reset"

def options : Verb → List Flag
  | compile => [{ name := "emit", summary := "Print the generated Lua chunk" }]
  | render =>
    [{ name := "data", short := some 'd', value? := some "DATA", mayBeEmpty := false,
       summary := "JSON file with render data" },
     { name := "json", value? := some "JSON", summary := "Inline JSON render data" }]
  | list | reset => []

def capacity : Verb → Option Nat
  | compile | reset => none
  | render => some 1
  | list => some 0

def summary : Verb → String
  | compile => "Compile templates (all templates when none are given)"
  | render => "Render a template to stdout"
  | list => "List every template of the project"
  | reset => "Drop cached artifacts (all templates when none are given)"

end Verb

/-! ### Help -/

def padded (width : Nat) (text : String) : String :=
  text ++ String.ofList (List.replicate (width - text.length) ' ')

def Flag.line (o : Flag) : String :=
  let short := o.short.elim "    " fun c => s!"-{c}, "
  let value := o.value?.elim "" fun name => s!" <{name}>"
  padded 31 ("  " ++ short ++ "--" ++ o.name ++ value) ++ o.summary ++ "\n"

def Flag.key (o : Flag) : String := o.short.elim o.name String.singleton

/-- Options in the order of a help text: by their rank among the options of a command or of all
commands, then by name. -/
def listed (own : List Flag) : List Flag :=
  let ranked := own.zipIdx ++ globalOptions.zipIdx
  (ranked.mergeSort fun (a, i) (b, j) => i < j || i = j && a.key ≤ b.key).map Prod.fst

def optionHelp (own : List Flag) : String :=
  String.join ((listed own).map Flag.line) ++ "  -h, --help                   Print help\n"

def programHelp : String :=
  "Layered HTML-aware template compiler targeting Lua\n\n" ++
  "Usage: stratum [OPTIONS] <COMMAND>\n\nCommands:\n" ++
  String.join (Verb.all.map fun v => "  " ++ padded 9 v.name ++ v.summary ++ "\n") ++
  "  help     Print this message or the help of the given subcommand(s)\n\nOptions:\n" ++
  optionHelp [] ++ "  -V, --version                Print version\n"

def verbHelp (v : Verb) : String :=
  let templates := "\nArguments:\n  [TEMPLATES]...  Templates as namespace:name or name\n"
  let (usage, arguments) :=
    match v with
    | .compile | .reset => (" [TEMPLATES]...", templates)
    | .render =>
      (" <TEMPLATE>", "\nArguments:\n  <TEMPLATE>  Template as namespace:name or name\n")
    | .list => ("", "")
  v.summary ++ "\n\nUsage: stratum " ++ v.name ++ " [OPTIONS]" ++ usage ++ "\n" ++ arguments ++
    "\nOptions:\n" ++ optionHelp v.options

def helpHelp : String :=
  "Print this message or the help of the given subcommand(s)\n\n" ++
  "Usage: stratum help [COMMAND]...\n\n" ++
  "Arguments:\n  [COMMAND]...  Print help for the subcommand(s)\n"

def version : String := "stratum 0.1.0\n"

/-! ### Reading -/

/-- The options given so far, in order, and the other arguments. An option whose value is an
argument of its own waits: it is checked when the next option comes, or when all has been read. -/
structure Given where
  options : List (String × String) := []
  waiting : Option (Flag × String) := none
  arguments : List String := []

namespace Given

def has (g : Given) (name : String) : Bool := g.options.any (·.1 == name)

def values (g : Given) (name : String) : List String :=
  (g.options.filter (·.1 == name)).map (·.2)

def value? (g : Given) (name : String) : Option String := (g.values name).head?

def add (g : Given) (o : Flag) (value : String) : Except Request Given :=
  if g.has o.name && !o.repeats then
    .error (.misuse s!"the argument '--{o.name}' cannot be used multiple times")
  else if value.isEmpty && !o.mayBeEmpty then
    .error (.misuse s!"a value is required for '--{o.name}' but none was supplied")
  else .ok { g with options := g.options ++ [(o.name, value)] }

def settle (g : Given) : Except Request Given :=
  match g.waiting with
  | none => .ok g
  | some (o, value) => { g with waiting := none }.add o value

end Given

/-- Where reading stands: at options of the program or of a command. -/
structure Level where
  verb? : Option Verb

namespace Level

def options (l : Level) : List Flag := (l.verb?.map Verb.options).getD [] ++ globalOptions

def help (l : Level) : String := (l.verb?.map verbHelp).getD programHelp

end Level

def looksLikeOption (arg : String) : Bool := Text.startsWith "-" arg && arg != "-"

def unexpected {α : Type} (arg : String) : Except Request α :=
  .error (.misuse s!"unexpected argument '{arg}' found")

def takeValue (g : Given) (o : Flag) (inline : Option String) (rest : List String) :
    Except Request (Given × List String) :=
  match inline, rest with
  | some value, rest => (g.add o value).map (·, rest)
  | none, value :: rest =>
    if looksLikeOption value then
      .error (.misuse s!"a value is required for '--{o.name}' but none was supplied")
    else .ok ({ g with waiting := some (o, value) }, rest)
  | none, [] => .error (.misuse s!"a value is required for '--{o.name}' but none was supplied")

def longOption (l : Level) (g : Given) (body : String) (rest : List String) :
    Except Request (Given × List String) :=
  let (name, inline) :=
    match Text.splitOnce '=' body with
    | some (name, value) => (name, some value)
    | none => (body, none)
  match l.options.find? (·.name == name) with
  | some o =>
    if o.takesValue then takeValue g o inline rest
    else if inline.isSome then unexpected ("--" ++ body)
    else (g.add o "true").map (·, rest)
  | none =>
    if inline.isSome then unexpected ("--" ++ body)
    else if name = "help" then .error (.say l.help)
    else if name = "version" && l.verb?.isNone then .error (.say version)
    else unexpected ("--" ++ body)

def shortOptions (l : Level) (g : Given) (body : List Char) (rest : List String) :
    Except Request (Given × List String) :=
  match body with
  | [] => .ok (g, rest)
  | c :: body =>
    match l.options.find? (·.short == some c) with
    | some o =>
      let inline :=
        match body with
        | [] => none
        | '=' :: value => some (String.ofList value)
        | value => some (String.ofList value)
      takeValue g o inline rest
    | none =>
      if c = 'h' then .error (.say l.help)
      else if c = 'V' && l.verb?.isNone then .error (.say version)
      else unexpected ("-" ++ String.ofList (c :: body))

def readOption (l : Level) (g : Given) (arg : String) (rest : List String) :
    Except Request (Given × List String) := do
  let g ← g.settle
  match arg.toList with
  | '-' :: '-' :: body => longOption l g (String.ofList body) rest
  | _ :: body => shortOptions l g body rest
  | [] => .ok (g, rest)

def readCommand (v : Verb) : Nat → Given → List String → Except Request Given
  | 0, g, _ => .ok g
  | _, g, [] => .ok g
  | fuel + 1, g, arg :: rest =>
    let full (g : Given) (count : Nat) : Bool :=
      match v.capacity with
      | some n => n < g.arguments.length + count
      | none => false
    if arg = "--" then
      if full g rest.length then unexpected (rest.headD "")
      else .ok { g with arguments := g.arguments ++ rest }
    else if looksLikeOption arg then do
      let (g, rest) ← readOption ⟨some v⟩ g arg rest
      readCommand v fuel g rest
    else if full g 1 then unexpected arg
    else readCommand v fuel { g with arguments := g.arguments ++ [arg] } rest

/-- The invocation of a command with the options before and after its name. -/
def invocation (v : Verb) (before after : Given) : Except Request Invocation := do
  let after ← after.settle
  let before ← before.settle
  let latest (name : String) : List String :=
    if after.has name then after.values name else before.values name
  let command ←
    match v with
    | .compile => .ok (.compile after.arguments (after.has "emit"))
    | .render =>
      match after.arguments.head? with
      | some template => .ok (.render template (after.value? "data") (after.value? "json"))
      | none => .error (.misuse "the following required arguments were not provided: <TEMPLATE>")
    | .list => .ok .list
    | .reset => .ok (.reset after.arguments)
  return ⟨command, (latest "config").headD "stratum.toml", latest "context"⟩

def readHelp : List String → Except Request Invocation
  | [] => .error (.say programHelp)
  | ["help"] => .error (.say helpHelp)
  | [name] =>
    match Verb.all.find? (·.name == name) with
    | some v => .error (.say (verbHelp v))
    | none => .error (.misuse s!"unrecognized subcommand '{name}'")
  | name :: _ => .error (.misuse s!"unrecognized subcommand '{name}'")

/-- The arguments from here on, up to the name of a command and behind it. -/
def readProgram : Nat → Given → List String → Except Request Invocation
  | 0, _, _ | _, _, [] => .error (.misuse "a subcommand is required")
  | fuel + 1, g, arg :: rest =>
    if arg = "--" then unexpected (rest.headD "")
    else if looksLikeOption arg then do
      let (g, rest) ← readOption ⟨none⟩ g arg rest
      readProgram fuel g rest
    else if arg = "help" then readHelp rest
    else
      match Verb.all.find? (·.name == arg) with
      | some v => do
        let after ← readCommand v (rest.length + 1) {} rest
        invocation v g after
      | none => .error (.misuse s!"unrecognized subcommand '{arg}'")

def read (args : List String) : Request :=
  match readProgram (args.length + 1) {} args with
  | .ok i => .run i
  | .error request => request

def run (args : List String) (d : Disk) : Outcome × Disk :=
  match read args with
  | .run i => i.run d
  | .say text => ({ out := text }, d)
  | .misuse message =>
    ({ err := "error: " ++ message ++ "\n\nFor more information, try '--help'.\n", exit := 2 }, d)

end Lamina.CommandLine
