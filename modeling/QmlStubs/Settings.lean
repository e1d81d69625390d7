import QmlStubs.FileTree.Basic
import QmlStubs.Text.Quoted
import QmlStubs.Toml.Document

/-!
# Settings

Settings are read from a TOML file, in which every key may be missing and unknown keys do not
count. They are validated after the command line has had its say.
-/

set_option autoImplicit false

namespace QmlStubs

/-- What one run of the generator is asked to do. -/
structure Settings where
  /-- Directories that are searched for source files. -/
  inDirs : List Path
  /-- Directories whose files do not count. -/
  ignore : List Path
  /-- Where everything is written. -/
  outDir : Path
  metatypesDir : Option Path
  registrarPath : Option Path
  /-- The directory that input files are written relative to. -/
  relativeTo : Option Path
  /-- The Python command that runs the import helper. -/
  interpreter : List String
  /-- The extension of source files. -/
  extension : String
  /-- The directories that modules are named relative to. -/
  searchRoots : List Path
  /-- Whether everything that was written before is discarded. -/
  forceRebuild : Bool
  deriving DecidableEq

/-- Why settings cannot be used. -/
inductive SettingsError where
  | file (cause : FileError)
  | malformed
  | noInput
  | noInterpreter
  | badExtension (extension : String)
  | noSearchRoot
  deriving DecidableEq

namespace SettingsError

/-- What is wrong with settings that were read. -/
def problem : SettingsError → String
  | noInput => "At least one input directory is required"
  | noInterpreter => "Interpreter command cannot be empty"
  | badExtension extension => "Invalid source extension: " ++ Text.quoted extension
  | noSearchRoot => "At least one module search root is required"
  | file cause => cause.message
  | malformed => "<toml>"

/-- The message of an error. -/
def message : SettingsError → String
  | file cause => "Failed to read config file: " ++ cause.message
  | malformed => "Failed to parse config: <toml>"
  | e => "Invalid config: " ++ e.problem

end SettingsError

namespace Settings

/-- The settings of an empty file. -/
def default : Settings where
  inDirs := []
  ignore := []
  outDir := ⟨"qml-stubs"⟩
  metatypesDir := none
  registrarPath := none
  relativeTo := none
  interpreter := ["python3"]
  extension := "py"
  searchRoots := [⟨"."⟩]
  forceRebuild := false

instance : Inhabited Settings := ⟨default⟩

/-- The file that is read when no other is named. -/
def fileName : Path := ⟨"qml-stubgen.toml"⟩

/-! ## Reading -/

/-- Read a string. -/
def string? : Toml → Option String
  | .string s => some s
  | _ => none

/-- Read a path. -/
def path? (v : Toml) : Option Path := (string? v).map Path.mk

/-- Read a list. -/
def list? {α : Type} (read : Toml → Option α) : Toml → Option (List α)
  | .array items => items.mapM read
  | _ => none

/-- Read a truth value. -/
def bool? : Toml → Option Bool
  | .boolean b => some b
  | _ => none

/-- Read a key that may be missing. -/
def key? {α : Type} (members : List (String × Toml)) (name : String) (default : α)
    (read : Toml → Option α) : Option α :=
  match members.lookup name with
  | none => some default
  | some v => read v

/-- The settings of a document. -/
def ofToml? (members : List (String × Toml)) : Option Settings := do
  let key {α : Type} := @key? α members
  return {
    inDirs := ← key "in_dirs" default.inDirs (list? path?)
    ignore := ← key "ignore" default.ignore (list? path?)
    outDir := ← key "out_dir" default.outDir path?
    metatypesDir := ← key "metatypes_dir" none fun v => (path? v).map some
    registrarPath := ← key "registrar_path" none fun v => (path? v).map some
    relativeTo := ← key "file_relative_path" none fun v => (path? v).map some
    interpreter := ← key "interpreter" default.interpreter (list? string?)
    extension := ← key "extension" default.extension string?
    searchRoots := ← key "search_roots" default.searchRoots (list? path?)
    forceRebuild := ← key "force_rebuild" default.forceRebuild bool? }

/-- The settings of a text. -/
def ofText (s : String) : Except SettingsError Settings :=
  match (Toml.parse? s).bind ofToml? with
  | some settings => .ok settings
  | none => .error .malformed

/-- The settings of a file. -/
def ofFile (t : FileTree) (p : Path) : Except SettingsError Settings :=
  match t.readText? p with
  | .error e => .error (.file e)
  | .ok s => ofText s

/-- The settings of the named file, or of the usual one if it is there, or none but defaults. -/
def load (t : FileTree) (p : Option Path) : Except SettingsError Settings :=
  match p with
  | some p => ofFile t p
  | none => if t.isFile fileName then ofFile t fileName else .ok default

/-! ## Validation -/

/-- Whether an extension can end the pattern of source files. -/
def isExtension (s : String) : Bool := s ≠ "" && !s.toList.any fun c => c = '/' || c = '*'

/-- The first thing that is wrong with settings. -/
def validate (s : Settings) : Except SettingsError Unit :=
  if s.inDirs.isEmpty then .error .noInput
  else if (s.interpreter.head?.getD "").isEmpty then .error .noInterpreter
  else if !isExtension s.extension then .error (.badExtension s.extension)
  else if s.searchRoots.isEmpty then .error .noSearchRoot
  else .ok ()

end Settings

end QmlStubs
