import Lamina.Directive
import Lamina.Token.Scan

/-! The providers that come with the library. -/

namespace Lamina.Provider

open Lamina.Text

def bodyOf (what : String) (call : Call) : Except CallFault String :=
  match call.body.map (onChars trim) with
  | some body => if body.isEmpty then .error (.required what) else .ok body
  | none => .error (.required what)

def isIdentifier (s : List Char) : Bool :=
  match s with
  | [] => false
  | c :: rest => Scan.isIdentStart c && rest.all Scan.isIdentChar

/-- The variable that `value` names; dollar signs before it do not count. -/
def variableOf (value : String) : Except CallFault String :=
  let name := (trim value.toList).dropWhile (· == '$')
  if isIdentifier name then .ok (String.ofList name)
  else .error (.notVariable (onChars trim value))

def conditional : Provider where
  names := ["if", "elseif", "else", "endif", "unless", "endunless", "isset", "endisset"]
  expand call :=
    match call.name with
    | "if" => (bodyOf "a condition" call).map fun body => s!"if {body} then"
    | "elseif" => (bodyOf "a condition" call).map fun body => s!"elseif {body} then"
    | "unless" => (bodyOf "a condition" call).map fun body => s!"if not ({body}) then"
    | "isset" => (bodyOf "an expression" call).map fun body => s!"if ({body}) ~= nil then"
    | "else" => .ok "else"
    | _ => .ok "end"

/-- The text behind `as` and the blanks around it, if `s` starts with them. -/
def afterAs? (s : List Char) : Option (List Char) :=
  match s with
  | [] => none
  | c :: _ =>
    if !isBlank c then none
    else
      match s.dropWhile isBlank with
      | 'a' :: 's' :: d :: rest => if isBlank d then some (rest.dropWhile isBlank) else none
      | _ => none

/-- The texts before and behind the first `as` that stands between blanks. -/
def splitAs? : List Char → Option (List Char × List Char)
  | [] => none
  | c :: s =>
    match afterAs? s with
    | some after => some ([c], after)
    | none => (splitAs? s).map fun (before, after) => (c :: before, after)

/-- The header of a loop over a sequence, or over a table for two variables. -/
def foreach (call : Call) : Except CallFault String := do
  let body ← bodyOf "a loop expression" call
  match splitAs? body.toList with
  | none => throw .notLoop
  | some (source, targets) =>
    let source := String.ofList (trim source)
    match (targets.splitOn ',').map String.ofList with
    | [item] =>
      let item ← variableOf item
      return s!"for _, {item} in ipairs({source}) do"
    | [key, value] =>
      let key ← variableOf key
      let value ← variableOf value
      return s!"for {key}, {value} in pairs({source}) do"
    | _ => throw .tooManyVariables

def loop : Provider where
  names := ["foreach", "endforeach", "for", "endfor", "while", "endwhile", "break"]
  expand call :=
    match call.name with
    | "foreach" => foreach call
    | "for" => (bodyOf "a loop header" call).map fun body => s!"for {body} do"
    | "while" => (bodyOf "a condition" call).map fun body => s!"while {body} do"
    | "break" => .ok "break"
    | _ => .ok "end"

def json : Provider where
  names := ["json"]
  expand call := (bodyOf "a value" call).map fun body => s!"__write(__json({body}))"

def container : Provider where
  names := ["inject"]
  expand call :=
    match call.values with
    | [name, id] => do
      let name ← variableOf name
      let id := onChars trim id
      if id.isEmpty then throw .serviceRequired
      return s!"local {name} = __service({id})"
    | _ => .error .twoValuesRequired

def route : Provider where
  names := ["route"]
  expand call :=
    if call.values.isEmpty then .error .oneValueRequired
    else
      .ok ("__write(__escape(__service(\"router\"):uri(" ++ ", ".intercalate call.values ++ ")))")

def lua : Provider where
  names := ["lua", "end"]
  expand call := if call.name = "lua" then bodyOf "a statement" call else .ok "end"

def shout : Provider where
  names := ["json", "shout"]
  expand call :=
    if call.values.isEmpty then .error .nothingToShout
    else .ok ("__write(string.upper(" ++ ", ".intercalate call.values ++ "))")

def builtinNames : List String := ["conditional", "loop", "json", "container", "route", "lua"]

def named? : String → Option Provider
  | "conditional" => some conditional
  | "loop" => some loop
  | "json" => some json
  | "container" => some container
  | "route" => some route
  | "lua" => some lua
  | _ => none

end Lamina.Provider

namespace Lamina.Directives

def builtin : Directives := ⟨Provider.builtinNames.filterMap Provider.named?⟩

def ofNames (names : List String) : Except Failure Directives :=
  (names.mapM fun name =>
    match Provider.named? name with
    | some provider => Except.ok provider
    | none => Except.error (Failure.config (.unknownProvider name))).map Directives.mk

end Lamina.Directives
