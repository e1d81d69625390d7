import QmlStubs.FileTree.Edit
import QmlStubs.Program
import QmlStubs.QmlModule

/-!
# The registrar

The registrar is the Qt tool that reads the types file of one QML module and writes the module's
registration code and `qmltypes` file. Its behaviour is a parameter: a function from its arguments
and the file tree to an exit status and the tree after it. `Registrar.scripted` is one that writes
its two outputs and nothing else.
-/

set_option autoImplicit false

namespace QmlStubs

/-- Why a registrar is not found or does not succeed. -/
inductive RegistrarError where
  | cannotStart (path : Path) (cause : FileError)
  | failed (module : QmlModule) (status : Nat)
  | noMetatypes
  | noRegistrar
  deriving DecidableEq

/-- The message of an error. -/
def RegistrarError.message : RegistrarError → String
  | cannotStart path cause => "Failed to run " ++ path.text ++ ": " ++ cause.message
  | failed module status =>
    "qmltyperegistrar failed for " ++ module.display ++ " with exit status: " ++ Text.ofNat status
  | noMetatypes =>
    "Could not find the Qt metatypes directory. Provide it manually using the --metatypes-dir option"
  | noRegistrar =>
    "Could not find qmltyperegistrar. Provide it manually using the --qmltyperegistrar-path option"

/-- A registrar: where it is, where programs are looked for, and what it does. -/
structure Registrar where
  path : Path
  searchPath : List Path
  behaviour : List String → FileTree → Nat × FileTree

namespace Registrar

/-- The arguments for one module, whose files lie in a directory. The foreign types are files with
types that the module's types may refer to. -/
def arguments (module : QmlModule) (directory : Path) (foreign : List Path) : List String :=
  [(directory.join module.typesFileName).text, "-o",
    (directory.join module.registrationsFileName).text, "--generate-qmltypes",
    (directory.join module.qmltypesFileName).text, "--import-name", module.uri,
    "--major-version", Text.ofNat module.major.toNat,
    "--minor-version", Text.ofNat module.minor.toNat,
    "--foreign-types", Text.joinStrings ',' (foreign.map (·.text))]

/-- Run the registrar for one module: the error, if it did not succeed, whether it was started, and
the tree after it. -/
def run (r : Registrar) (module : QmlModule) (directory : Path) (foreign : List Path)
    (t : FileTree) : Option RegistrarError × Bool × FileTree :=
  let args := arguments module directory foreign
  match (Launch.mk (r.path.text :: args) none []).startError? t r.searchPath with
  | some cause => (some (.cannotStart r.path cause), false, t)
  | none =>
    let (status, t) := r.behaviour args t
    (if status = 0 then none else some (.failed module status), true, t)

/-- A behaviour that fails for one module name with a status and otherwise writes empty files in
the places of its two outputs. -/
def scripted (fails : Option (String × Nat)) (args : List String) (t : FileTree) :
    Nat × FileTree :=
  let status := match fails with
    | some (uri, status) => if args[6]? = some uri then some (status % 256) else none
    | none => none
  match status, args with
  | some status, _ => (status, t)
  | none, _ :: _ :: registrations :: _ :: qmltypes :: _ =>
    match t.run (do
        FileTree.writeText ⟨registrations⟩ ""
        FileTree.writeText ⟨qmltypes⟩ "") with
    | (.ok _, t) => (0, t)
    | (.error _, t) => (2, t)
  | none, _ => (2, t)

/-! ## Looking for an installation -/

/-- The directories where Qt may be installed, the configured one first. -/
def installations (qtDir : Option Path) : List Path :=
  qtDir.toList ++ [⟨"/usr/lib/qt6"⟩, ⟨"/usr/lib64/qt6"⟩, ⟨"/usr/lib/x86_64-linux-gnu/qt6"⟩,
    ⟨"/usr/lib/aarch64-linux-gnu/qt6"⟩, ⟨"/usr/local/lib/qt6"⟩]

/-- The directory with the metatypes of Qt. -/
def findMetatypes (t : FileTree) (qtDir : Option Path) : Except RegistrarError Path :=
  let candidates := (installations qtDir).flatMap fun p =>
    [p.join "metatypes", (p.join "lib").join "metatypes"]
  match candidates.find? t.isDirectory with
  | some p => .ok p
  | none => .error .noMetatypes

/-- The registrar of an installation. -/
def findRegistrar (t : FileTree) (qtDir : Option Path) : Except RegistrarError Path :=
  let candidates := (installations qtDir).flatMap fun p =>
    [p.join "qmltyperegistrar", (p.join "libexec").join "qmltyperegistrar",
      p.join "qmltyperegistrar.exe"]
  match candidates.find? t.isFile with
  | some p => .ok p
  | none => .error .noRegistrar

end Registrar

end QmlStubs
