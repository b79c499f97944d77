import Lamina.Artifact
import Lamina.Chunk
import Lamina.Failure
import Lamina.Script

/-! Programs: a chunk between a preamble and an epilogue is a script whose function renders a page.
Failures of the script are told in terms of the templates. -/

namespace Lamina

namespace Program

/-- What chunks rely on: how values are written, looked up and escaped. -/
def preamble : List String := [
  "local __globals = _ENV",
  "local __concat = table.concat",
  "local __null = json.null",
  "local __encode = json.encode",
  "local __entities = \x7b [\"&\"] = \"&amp;\", [\"<\"] = \"&lt;\", [\">\"] = \"&gt;\", " ++
    "['\"'] = \"&quot;\", [\"'\"] = \"&#39;\" \x7d",
  "local function __tostring(value)",
  "  if value == nil or value == __null then",
  "    return \"\"",
  "  end",
  "  return tostring(value)",
  "end",
  "local function __escape(value)",
  "  return (string.gsub(__tostring(value), [=[[&<>\"']]=], __entities))",
  "end",
  "local function __json(value)",
  "  return __encode(value)",
  "end",
  "return function(__data, __lookup)",
  "  local __out = \x7b\x7d",
  "  local function __write(value)",
  "    __out[#__out + 1] = value",
  "  end",
  "  local function __service(id)",
  "    local service = __lookup(id)",
  "    if service == nil then",
  "      error(\"undefined service `\" .. __tostring(id) .. \"`\", 2)",
  "    end",
  "    return service",
  "  end",
  "  local _ENV = setmetatable(\x7b\x7d, \x7b __index = function(_, key)",
  "    local value = __data[key]",
  "    if value == nil then",
  "      value = __globals[key]",
  "    end",
  "    return value",
  "  end \x7d)"]

def epilogue : List String := ["  return __concat(__out)", "end"]

def joinLines (lines : List String) : String := String.join (lines.map (· ++ "\n"))

/-- The artifact of a chunk; its source map starts behind the preamble. -/
def assemble (key template : String) (chunk : Chunk) : Artifact where
  key := key
  template := template
  source := joinLines preamble ++ chunk.content ++ joinLines epilogue
  sourceMap := chunk.sourceMap.shift preamble.length
  dependencies := chunk.paths

end Program

namespace Artifact

def rootFile (a : Artifact) : String := a.dependencies.headD a.template

def loadFailure (a : Artifact) (fault : ScriptFault) : Failure :=
  let failure : Failure :=
    match fault with
    | .grammar message =>
      match (a.sourceMap.locate? message a.id).bind a.sourceMap.find? with
      | some origin =>
        .parse (.hostCode (a.sourceMap.translate message a.id)) origin.path origin.line none
      | none => .script fault.text
    | _ => .script fault.text
  failure.whileCompiling a.rootFile

def renderFailure (a : Artifact) (fault : ScriptFault) : Failure :=
  let frames :=
    match a.sourceMap.locate? fault.text a.id with
    | some line => a.sourceMap.frames line a.rootFile
    | none => []
  .render a.template (a.sourceMap.translate fault.text a.id) frames fault.text

/-- Loads the source of an artifact, a script that has to give a function. -/
def load (a : Artifact) (s : Scripts) : Except Failure Unit × Scripts :=
  let (loaded, s) := s.load a.id a.source
  ((loaded.map fun _ => ()).mapError a.loadFailure, s)

def render (a : Artifact) (s : Scripts) (data : Json) : Except Failure String × Scripts :=
  let (page, s) := s.render a.id a.source data
  (page.mapError a.renderFailure, s)

end Artifact

end Lamina
