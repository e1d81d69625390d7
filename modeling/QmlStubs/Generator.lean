import QmlStubs.CommandLine
import QmlStubs.Importer.Helper
import QmlStubs.Scan
import QmlStubs.Stubs

/-!
# The generator

One invocation of the generator as a function: it reads its settings, prepares the output directory,
scans the source files with the import helper, and refreshes the stubs. The other programs are
parameters (`Surroundings`), and the outcome holds everything that can be seen afterwards.
-/

set_option autoImplicit false

namespace QmlStubs

/-- What an invocation finds around it, beside the file tree. -/
structure Surroundings where
  /-- Where programs are looked for. -/
  searchPath : List Path
  /-- Where Qt is installed, if that is said. -/
  qtDir : Option Path
  /-- The source of the import helper. -/
  helperSource : String
  /-- What the import helper does. -/
  helper : HelperProgram
  /-- What the registrar does. -/
  registrar : List String → FileTree → Nat × FileTree

/-- Why an invocation fails. -/
inductive GeneratorError where
  | loadSettings (cause : SettingsError)
  | settings (cause : SettingsError)
  | installation (cause : RegistrarError)
  | removeOutput (path : Path) (cause : FileError)
  | createOutput (path : Path) (cause : FileError)
  | writeReadme (cause : FileError)
  | searchRoots
  | scan (cause : ScanError)
  | refresh (cause : RefreshError)
  deriving DecidableEq

/-- The message of an error. -/
def GeneratorError.message : GeneratorError → String
  | loadSettings _ => "Failed to load config"
  | settings cause => cause.message
  | installation cause => cause.message
  | removeOutput path _ => "Failed to remove " ++ path.text
  | createOutput path _ => "Failed to create " ++ path.text
  | writeReadme _ => "Failed to write README"
  | searchRoots => "Module search roots cannot be joined into a search path"
  | scan cause => cause.message
  | refresh cause => cause.message

/-- What an invocation leaves behind. -/
structure GeneratorState where
  tree : FileTree
  notices : List Notice
  /-- The arguments of each run of the registrar. -/
  calls : List (List String)
  /-- The import helpers that were started. -/
  launches : List Launch
  /-- The requests they were sent. -/
  requests : List String

namespace Generator

/-- A step of an invocation. -/
abbrev Action := ExceptT GeneratorError (StateM GeneratorState)

/-- The tool's name and version. -/
def versionText : String := "qml-stubgen " ++ Snapshot.currentVersion

/-- The variable that Python looks for modules in. -/
def searchVariable : String := "PYTHONPATH"

/-- Add a notice. -/
def report (n : Notice) : Action Unit := modify fun g => { g with notices := g.notices ++ [n] }

/-- Carry an edit of the files out. -/
def edit (e : FileTree.Edit) (wrap : FileError → GeneratorError) : Action Unit := do
  let g ← get
  match g.tree.run e with
  | (.ok _, t) => set { g with tree := t }
  | (.error cause, t) =>
    set { g with tree := t }
    throw (wrap cause)

/-- The paths with a blank between them, each after a mark. -/
def listed (mark : String) (paths : List Path) : String :=
  " ".intercalate (paths.map fun p => mark ++ p.text)

/-- The text of the README in the output directory: the command that leads to it. -/
def readme (s : Settings) (metatypes registrar : Path) : String :=
  "QML type stubs generated automatically using\nqml-stubgen " ++ listed "" s.inDirs ++
    " --out-dir " ++ s.outDir.text ++ " " ++ listed "--ignore " s.ignore ++ " --metatypes-dir " ++
    metatypes.text ++ " --qmltyperegistrar-path " ++ registrar.text

/-- The search roots as one text, unless the separator is part of one. -/
def searchText? (roots : List Path) : Option String :=
  if roots.any fun r => r.text.toList.contains ':' then none
  else some (Text.joinStrings ':' (roots.map (·.text)))

/-- The settings of an invocation: those of the file with the options on top, if they are valid. -/
def settingsFor (t : FileTree) (o : Options) : Except GeneratorError Settings := do
  match Settings.load t o.settingsFile with
  | .error e => throw (.loadSettings e)
  | .ok s =>
    let s := o.apply s
    match s.validate with
    | .error e => throw (.settings e)
    | .ok _ => return s

/-- A path that is given or else looked for. -/
def located (given : Option Path) (look : Except RegistrarError Path) :
    Except GeneratorError Path :=
  match given with
  | some p => .ok p
  | none =>
    match look with
    | .ok p => .ok p
    | .error e => .error (.installation e)

/-- Make the output directory ready: empty if everything is to be discarded, with a README. -/
def prepare (s : Settings) (metatypes registrar : Path) : Action Unit := do
  if s.forceRebuild && (← get).tree.isPresent s.outDir then
    edit (FileTree.removeTree s.outDir) (.removeOutput s.outDir)
  edit (FileTree.makeDirectories s.outDir) (.createOutput s.outDir)
  edit (FileTree.writeText (s.outDir.join "README") (readme s metatypes registrar)) .writeReadme

/-- Scan the source files with the import helper. -/
def scan (around : Surroundings) (s : Settings) (searchText : String) : Action ScanReport := do
  let g ← get
  let helper := (Helper.python s.interpreter around.helperSource around.searchPath
    around.helper).withVariable searchVariable searchText
  let roots := ModuleName.searchRoots g.tree s.searchRoots
  let outcome := Scan.run (helper.importer g.tree) (ModuleName.ofFile roots) s g.tree
    Helper.State.empty
  set { g with
    tree := outcome.tree
    notices := g.notices ++ outcome.notices
    launches := g.launches ++ outcome.state.launches
    requests := g.requests ++ outcome.state.requests }
  match outcome.result with
  | .error e => throw (.scan e)
  | .ok r => return r

/-- Refresh the stubs after a scan. -/
def refresh (stubs : Stubs) (r : ScanReport) : Action RefreshReport := do
  let g ← get
  let (result, w) := (stubs.refresh r.registrations (.ofList r.files) r.staleFiles).run.run
    ⟨g.tree, g.calls, g.notices⟩
  set { g with tree := w.tree, calls := w.calls, notices := w.notices }
  match result with
  | .error e => throw (.refresh e)
  | .ok r => return r

/-- One invocation with options. -/
def invoke (around : Surroundings) (o : Options) : Action Unit := do
  let t := (← get).tree
  let s ← liftM (m := Except GeneratorError) (settingsFor t o)
  let metatypes ← liftM (m := Except GeneratorError)
    (located s.metatypesDir (Registrar.findMetatypes t around.qtDir))
  let registrar ← liftM (m := Except GeneratorError)
    (located s.registrarPath (Registrar.findRegistrar t around.qtDir))
  prepare s metatypes registrar
  match searchText? s.searchRoots with
  | none => throw .searchRoots
  | some searchText =>
    report .startingImports
    let scanned ← scan around s searchText
    report .startingTypes
    let refreshed ← refresh
      ⟨s.outDir, metatypes, ⟨registrar, around.searchPath, around.registrar⟩, s.relativeTo⟩ scanned
    report (.done scanned.assessment.dirtyFiles.length refreshed.regenerated.length
      refreshed.removed.length)

/-- How an invocation ends. -/
inductive Ending where
  | success
  | failure (cause : GeneratorError)
  /-- The arguments ask for something else than a run, or are wrong. -/
  | stopped (reason : CommandLineStop)

/-- The exit status: one for a failure, two for wrong arguments. -/
def Ending.status : Ending → Nat
  | success => 0
  | failure _ => 1
  | stopped .wrongUsage => 2
  | stopped _ => 0

/-- One invocation with arguments. -/
def run (around : Surroundings) (args : List String) (t : FileTree) : Ending × GeneratorState :=
  let g : GeneratorState := ⟨t, [], [], [], []⟩
  match Options.read args with
  | .error reason => (.stopped reason, g)
  | .ok o =>
    match (invoke around o).run.run g with
    | (.ok _, g) => (.success, g)
    | (.error e, g) => (.failure e, g)

end Generator

end QmlStubs
