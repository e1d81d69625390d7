import QmlStubs.Importer.Basic
import QmlStubs.Json.Parser
import QmlStubs.Json.Printer
import QmlStubs.Program
import QmlStubs.TypesFile.Format

/-!
# Importing through a helper process

The importer of the generator proper drives a helper process, which is started at the first import.
Each request is one line of JSON with the name of a module, and each answer is one line with the
outcome, the imports it caused, the files of the modules that are loaded, and the classes that were
registered. What the process does is a parameter: the bytes it writes after each request, and the
status it ends with.
-/

set_option autoImplicit false

namespace QmlStubs

open Json (required withDefault optional string? bool? list? fields?)

/-- What a helper process does. -/
structure HelperProgram where
  /-- The bytes written after the last of the given requests, or `none` to end without an
  answer. -/
  answer? : List String → Option ByteArray
  /-- The status it ends with. -/
  status : Nat

namespace HelperProgram

/-- A process that answers its requests with the given lines and ends when there is none left. -/
def ofLines (lines : List ByteArray) (status : Nat) : HelperProgram where
  answer? requests :=
    (lines[requests.length - 1]?).map fun l => l.push '\n'.toUInt8
  status := status

end HelperProgram

/-- An answer of a helper process. -/
structure HelperResponse where
  ok : Bool
  error : Option String
  events : List ImportEvent
  modules : SortedMap String (Option Path)
  registrations : List Registration

namespace HelperResponse

/-- Read an import event. -/
def event? (j : Json) : Option ImportEvent := do
  match ← fields? ["caller", "module", "reexports"] j with
  | [caller, module, reexports] =>
    return ⟨← optional string? caller, ← required string? module,
      ← listOrEmpty string? reexports⟩
  | _ => none

/-- Read the file of a module. -/
def file? (j : Json) : Option Path := (string? j).map Path.mk

/-- Read a response. -/
def ofJson? (j : Json) : Option HelperResponse := do
  match ← fields? ["ok", "error", "events", "modules", "registrations"] j with
  | [ok, error, events, modules, registrations] =>
    return ⟨← required bool? ok, ← optional string? error, ← listOrEmpty event? events,
      ← withDefault .empty (Json.map? (Json.nullable? file?)) modules,
      ← listOrEmpty (Registration.ofJson? 2) registrations⟩
  | _ => none

/-- The response of a line. -/
def ofLine? (line : String) : Option HelperResponse := (Json.parse? line).bind ofJson?

end HelperResponse

/-- How the helper is started. -/
structure Helper where
  launch : Launch
  /-- How messages name the command. -/
  description : String
  /-- Where programs are looked for. -/
  searchPath : List Path
  program : HelperProgram

namespace Helper

/-- A helper that is started by a command. -/
def ofCommand (command : List String) (searchPath : List Path) (program : HelperProgram) :
    Helper :=
  ⟨⟨command, none, []⟩, " ".intercalate command, searchPath, program⟩

/-- A helper whose source is handed to a Python interpreter. Messages do not show the source. -/
def python (interpreter : List String) (source : String) (searchPath : List Path)
    (program : HelperProgram) : Helper :=
  ⟨⟨interpreter ++ ["-c", source], none, []⟩,
    " ".intercalate interpreter ++ " -c <qml_stubgen_helper>", searchPath, program⟩

/-- Start the helper in a directory. -/
def inDirectory (h : Helper) (directory : Path) : Helper :=
  { h with launch := { h.launch with directory := some directory } }

/-- Set a variable for the helper. -/
def withVariable (h : Helper) (name value : String) : Helper :=
  { h with launch := { h.launch with environment := h.launch.environment ++ [(name, value)] } }

/-- A helper process that was started. -/
structure Process where
  /-- The requests it was sent. -/
  requests : List String
  /-- What it wrote and was not read yet. -/
  unread : List UInt8
  /-- Whether it ended. -/
  ended : Bool

/-- The importer's side of the conversation. -/
structure State where
  process : Option Process
  modules : SortedMap String (Option Path)
  registrations : List Registration
  /-- The helpers that were started. -/
  launches : List Launch
  /-- The requests that were sent, to any of them. -/
  requests : List String

/-- No helper was started yet. -/
def State.empty : State := ⟨none, .empty, [], [], []⟩

/-- The line that asks for a module, without its line end. -/
def requestLine (module : String) : String := (Json.record [("import", .text module)]).compact

/-- The first line of some bytes with its line end, and the bytes after it. -/
def splitLine : List UInt8 → List UInt8 × List UInt8
  | [] => ([], [])
  | b :: rest =>
    if b = '\n'.toUInt8 then ([b], rest)
    else
      let (line, rest) := splitLine rest
      (b :: line, rest)

/-- The helper process, started if there is none. -/
def process? (h : Helper) (t : FileTree) (s : State) : Except ImportError (Process × State) :=
  match s.process with
  | some p => .ok (p, s)
  | none =>
    if h.launch.command.isEmpty then .error .noCommand
    else
      match h.launch.startError? t h.searchPath with
      | some cause => .error (.cannotStart h.description cause)
      | none => .ok (⟨[], [], false⟩, { s with launches := s.launches ++ [h.launch] })

/-- Send a request and read the line that answers it. A helper that ended without another line is
given up. -/
def ask (h : Helper) (t : FileTree) (module : String) (s : State) :
    Except ImportError HelperResponse × State :=
  match process? h t s with
  | .error e => (.error e, s)
  | .ok (p, s) =>
    if p.ended then (.error (.file .brokenPipe), { s with process := some p })
    else
      let line := requestLine module
      let requests := p.requests ++ [line]
      let s := { s with requests := s.requests ++ [line] }
      let (written, ended) := match h.program.answer? requests with
        | some bytes => (bytes.toList, false)
        | none => ([], true)
      match splitLine (p.unread ++ written) with
      | ([], _) => (.error .exited, { s with process := none })
      | (answer, unread) =>
        let s := { s with process := some ⟨requests, unread, ended⟩ }
        match String.fromUTF8? ⟨answer.toArray⟩ with
        | none => (.error (.file .invalidData), s)
        | some text =>
          match HelperResponse.ofLine? text with
          | none => (.error .protocol, s)
          | some response => (.ok response, s)

/-- Import a module: its events and files are taken from every response, its registrations only
from one that says that the import succeeded. -/
def importModule (h : Helper) (t : FileTree) (module : String) (s : State) : ImportResult State :=
  match ask h t module s with
  | (.error e, s) => ⟨.error e, [], s⟩
  | (.ok r, s) =>
    let s := { s with modules := s.modules.union r.modules }
    if r.ok then
      ⟨.ok ⟨module, (s.modules.find? module).join⟩, r.events,
        { s with registrations := s.registrations ++ r.registrations }⟩
    else ⟨.error (.failed module (r.error.getD "no error message")), r.events, s⟩

/-- Close the helper's input and wait for its end. -/
def finish (h : Helper) (s : State) : Except ImportError Unit × State :=
  match s.process with
  | none => (.ok (), s)
  | some _ =>
    (if h.program.status = 0 then .ok () else .error (.finishedWith h.program.status),
      { s with process := none })

/-- The importer that drives a helper. -/
def importer (h : Helper) (t : FileTree) : Importer State where
  importModule := importModule h t
  loaded? s name := (s.modules.find? name).map fun file => ⟨name, file⟩
  loadedFiles s := .ofList (s.modules.values.filterMap id)
  takeRegistrations s := (s.registrations, { s with registrations := [] })
  finish := finish h

end Helper

end QmlStubs
