import QmlStubs.FileTree.Edit
import QmlStubs.Json.Parser
import QmlStubs.Json.Printer
import QmlStubs.Json.Reader
import QmlStubs.Snapshot.Basic
import QmlStubs.Text.Quoted

/-!
# Storing snapshots

A snapshot is kept as `metadata.json` in the output directory. It is saved in four single steps
(`Snapshot.saveSteps`): the new text goes to a file beside it, which then takes its place, so a
save that stops anywhere leaves the old snapshot or the new one. Loading never fails: a snapshot
that is missing, unreadable or of another version counts as empty, which makes every file new.
-/

set_option autoImplicit false

namespace QmlStubs

/-- Why a stored snapshot is not used. -/
inductive SnapshotError where
  | file (cause : FileError)
  | malformed
  | otherVersion (found : String)
  deriving DecidableEq

/-- The message of an error. -/
def SnapshotError.message : SnapshotError → String
  | file cause => "IO error: " ++ cause.message
  | malformed => "JSON error: <json>"
  | otherVersion found =>
    "Snapshot version mismatch: expected " ++ Snapshot.currentVersion ++ ", found " ++
      Text.quoted found

/-! ## The stored form -/

/-- The stored form of a record. -/
def ModuleRecord.toJson (r : ModuleRecord) : Json :=
  .record [("modification_time", .binary64 r.modified), ("path", .text r.path.text),
    ("dependencies", .texts r.dependencies.toList)]

/-- The record of a stored form. -/
def ModuleRecord.ofJson? (j : Json) : Option ModuleRecord := do
  match ← j.fields? ["modification_time", "path", "dependencies"] with
  | [modified, path, dependencies] =>
    return ⟨← Json.required Json.binary64? modified, ⟨← Json.required Json.string? path⟩,
      .ofList (← Json.withDefault [] (Json.list? Json.string?) dependencies)⟩
  | _ => none

/-- The stored form of an entry. -/
def ModuleEntry.toJson : ModuleEntry → Json
  | some r => r.toJson
  | none => .null

namespace Snapshot

/-- The stored form, which always carries the current version. -/
def toJson (s : Snapshot) : Json :=
  .record [("modules", .record (s.modules.entries.map fun e => (e.1, ModuleEntry.toJson e.2))),
    ("generating_version", .text currentVersion)]

/-- The snapshot of a stored form, of any version. -/
def ofJson? (j : Json) : Option Snapshot := do
  match ← j.fields? ["modules", "generating_version"] with
  | [modules, version] =>
    return ⟨← Json.required (Json.map? (Json.nullable? ModuleRecord.ofJson?)) modules,
      ← Json.withDefault "" Json.string? version⟩
  | _ => none

/-- The text of a stored snapshot. -/
def text (s : Snapshot) : String := s.toJson.indented

/-- The snapshot of a stored text of this version. -/
def ofText (s : String) : Except SnapshotError Snapshot :=
  match (Json.parse? s).bind ofJson? with
  | none => .error .malformed
  | some snapshot =>
    if snapshot.version = currentVersion then .ok snapshot
    else .error (.otherVersion snapshot.version)

/-! ## The file -/

/-- The file of a snapshot in a directory. -/
def pathIn (directory : Path) : Path := directory.join "metadata.json"

/-- The file that a new snapshot is written to first. -/
def draftIn (directory : Path) : Path := directory.join "metadata.json.tmp"

/-- Read a stored snapshot. -/
def read (t : FileTree) (p : Path) : Except SnapshotError Snapshot :=
  match t.readText? p with
  | .error e => .error (.file e)
  | .ok text => ofText text

/-- The stored snapshot of a directory, or the empty one, with the reason if one was found but is
not used. -/
def load (t : FileTree) (directory : Path) : Snapshot × Option SnapshotError :=
  if t.isPresent (pathIn directory) then
    match read t (pathIn directory) with
    | .ok s => (s, none)
    | .error e => (empty, some e)
  else (empty, none)

/-- The single steps of a save. -/
def saveSteps (s : Snapshot) (directory : Path) : List FileTree.Edit :=
  [FileTree.makeDirectories directory, FileTree.writeText (draftIn directory) "",
    FileTree.writeText (draftIn directory) s.text,
    FileTree.rename (draftIn directory) (pathIn directory)]

/-- Save a snapshot in a directory. -/
def save (s : Snapshot) (directory : Path) : FileTree.Edit := (s.saveSteps directory).forM id

end Snapshot

end QmlStubs
