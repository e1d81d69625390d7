import QmlStubs.Glob.Search
import QmlStubs.Notice
import QmlStubs.Registrar
import QmlStubs.TypesFile.Format

/-!
# Refreshing the stubs

The stubs of a QML module are its types file, the two files that the registrar makes from it, and a
`qmldir` file for each directory. A refresh brings them in line with a scan: the entries of stale
files are dropped, the fresh registrations are put in, modules that changed are written and passed
to the registrar, modules without entries are removed, and every `qmldir` is written anew.

The work is done in phases. First the types files of all modules get their final content in module
order, then the registrar is run for the ones that changed, and only then the `qmldir` files are
replaced. A failure ends the refresh where it happens.
-/

set_option autoImplicit false

namespace QmlStubs

/-- Why a refresh is given up. -/
inductive RefreshError where
  /-- A class was registered from a file that is not among the source files. -/
  | unknownInput (className : String) (module : QmlModule) (inputFile : String)
  /-- A registered file is not below the directory that input files are relative to. -/
  | outsideBase (inputFile base : Path)
  | badPattern
  | types (cause : TypesFileError)
  | registrar (cause : RegistrarError)
  | file (cause : FileError)
  deriving DecidableEq

/-- The message of an error. -/
def RefreshError.message : RefreshError → String
  | unknownInput className module inputFile =>
    "Found " ++ className ++ " registered for " ++ module.display ++ " but the file " ++
      inputFile ++ " is not among the scanned files"
  | outsideBase inputFile base => inputFile.text ++ " is not below " ++ base.text
  | badPattern => "Invalid glob pattern: <pattern>"
  | types cause => "Descriptor error: " ++ cause.message
  | registrar cause => "Registrar error: " ++ cause.message
  | file cause => "IO error: " ++ cause.message

/-- What a refresh did to each QML module. -/
structure RefreshReport where
  regenerated : List QmlModule
  removed : List QmlModule
  unchanged : List QmlModule
  qmldirs : List Path
  deriving DecidableEq

/-- Where stubs are written and what is needed for it. -/
structure Stubs where
  outDir : Path
  metatypesDir : Path
  registrar : Registrar
  /-- The directory that input files are written relative to. -/
  relativeTo : Option Path

/-- What a refresh changes: the files, the calls of the registrar, and the notices. -/
structure Workbench where
  tree : FileTree
  /-- The arguments of each run of the registrar. -/
  calls : List (List String)
  notices : List Notice

/-- A step of a refresh. -/
abbrev Refresh := ExceptT RefreshError (StateM Workbench)

namespace Stubs

/-! ## Single steps -/

/-- Carry an edit of the files out. -/
def edit (e : FileTree.Edit) (wrap : FileError → RefreshError) : Refresh Unit := do
  let w ← get
  match w.tree.run e with
  | (.ok _, t) => set { w with tree := t }
  | (.error cause, t) =>
    set { w with tree := t }
    throw (wrap cause)

/-- The paths below a directory that match a pattern, in path order. -/
def glob (directory : Path) (pattern : String) : Refresh (List Path) := do
  match Glob.pathsBelow? (← get).tree directory pattern.toList with
  | none => throw .badPattern
  | some paths => return paths.mergeSort fun p q => (compare p.components q.components).isLE

/-! ## Grouping registrations -/

/-- The directory that relative input files start from. -/
def base (s : Stubs) (t : FileTree) : Path :=
  t.canonicalOr (s.relativeTo.getD (FileTree.pathOf t.current))

/-- An entry whose input file is written relative to the base, if that is asked for. -/
def relativeEntry (s : Stubs) (base : Path) (e : TypesEntry) : Except RefreshError TypesEntry :=
  match s.relativeTo with
  | none => .ok e
  | some _ =>
    match (Path.mk e.inputFile).relativeTo? base with
    | none => .error (.outsideBase ⟨e.inputFile⟩ base)
    | some cs => .ok { e with inputFile := Text.joinStrings '/' (cs.map Component.text) }

/-- Entries by their QML module, in the order in which they were registered. -/
abbrev Fresh := SortedMap QmlModule (List TypesEntry)

/-- Add one registration. -/
def addRegistration (s : Stubs) (base : Path) (fresh : Fresh) (r : Registration) :
    Except RefreshError Fresh := do
  let e ← s.relativeEntry base r.entry
  return fresh.insert r.module ((fresh.find? r.module).getD [] ++ [e])

/-- The registrations by their QML module. -/
def group (s : Stubs) (base : Path) (registrations : List Registration) :
    Except RefreshError Fresh :=
  registrations.foldlM (s.addRegistration base) .empty

/-! ## Types files -/

/-- The entries that a types file gets: the former ones whose input file is clean, then the fresh
ones, sorted by their first class. -/
def merge (t : FileTree) (base : Path) (clean : PathSet) (former fresh : List TypesEntry) :
    List TypesEntry :=
  (former.filter (fun e => clean.has (e.resolvedInput t base)) ++ fresh).mergeSort
    fun a b => (compare a.sortKey b.sortKey).isLE

/-- A QML module whose types file has its final content. -/
structure Settled where
  module : QmlModule
  directory : Path
  entries : List TypesEntry
  /-- Whether the types file was written. -/
  changed : Bool

/-- The types file of a QML module. -/
def Settled.typesFile (m : Settled) : Path := m.directory.join m.module.typesFileName

/-- The former entries of a types file; none if it is not there. -/
def formerEntries (p : Path) : Refresh (List TypesEntry) := do
  let t := (← get).tree
  if t.isPresent p then
    match TypesFile.read t p with
    | .ok entries => return entries
    | .error e => throw (.types e)
  else return []

/-- Remove the files of a QML module that has no entries left. -/
def removeFiles (module : QmlModule) (directory : Path) : Refresh Unit :=
  [module.typesFileName, module.registrationsFileName, module.qmltypesFileName].forM fun name =>
    edit (FileTree.removeIfPresent (directory.join name)) .file

/-- Bring the types file of one QML module in line. -/
def settle (s : Stubs) (base : Path) (files clean : PathSet) (fresh : Fresh)
    (module : QmlModule) : Refresh Settled := do
  let directory := module.directoryIn s.outDir
  edit (FileTree.makeDirectories directory) .file
  let typesFile := directory.join module.typesFileName
  let former ← formerEntries typesFile
  let t := (← get).tree
  let entries := merge t base clean former ((fresh.find? module).getD [])
  match entries.find? fun e => !files.has (e.resolvedInput t base) with
  | some e => throw (.unknownInput e.sortKey module e.inputFile)
  | none =>
    if entries.isEmpty then
      removeFiles module directory
      return ⟨module, directory, [], false⟩
    else if former = entries then return ⟨module, directory, entries, false⟩
    else
      edit (TypesFile.write typesFile entries) fun e => .types (.file typesFile e)
      return ⟨module, directory, entries, true⟩

/-! ## The registrar -/

/-- Run the registrar for a QML module that changed. -/
def generate (s : Stubs) (foreign : List Path) (m : Settled) : Refresh Unit := do
  modify fun w => { w with notices := w.notices ++ [.generating m.module m.entries.length] }
  let w ← get
  let (error, started, t) := s.registrar.run m.module m.directory foreign w.tree
  let call := if started then [Registrar.arguments m.module m.directory foreign] else []
  set { w with tree := t, calls := w.calls ++ call }
  match error with
  | some e => throw (.registrar e)
  | none => pure ()

/-! ## The qmldir files -/

/-- A `qmldir` file: its directory, the name of its QML module, and its lines. -/
structure Qmldir where
  directory : Path
  uri : String
  lines : SortedSet String

/-- The lines that a QML module adds to the `qmldir` of its directory. -/
def qmldirLines (m : Settled) : List String :=
  ("typeinfo " ++ m.module.qmltypesFileName) ::
    m.entries.flatMap fun e => (e.qtModules ++ e.pyModules).map fun d => "depends " ++ d

/-- Add a QML module to the `qmldir` files. A directory is named for its first module. -/
def addQmldir (dirs : SortedMap (List Component) Qmldir) (m : Settled) :
    SortedMap (List Component) Qmldir :=
  let known := (dirs.find? m.directory.components).getD ⟨m.directory, m.module.uri, .empty⟩
  dirs.insert m.directory.components { known with lines := known.lines.insertAll (qmldirLines m) }

/-- The text of a `qmldir` file. -/
def Qmldir.text (q : Qmldir) : String :=
  String.join (("module " ++ q.uri ++ "\n") :: q.lines.toList.map fun l => l ++ "\n")

/-- The path of a `qmldir` file. -/
def Qmldir.path (q : Qmldir) : Path := q.directory.join "qmldir"

/-- Replace all `qmldir` files. -/
def replaceQmldirs (s : Stubs) (dirs : List Qmldir) : Refresh Unit := do
  let stale ← glob s.outDir "**/qmldir"
  stale.forM fun p => edit (FileTree.removeFile p) .file
  dirs.forM fun q => edit (FileTree.writeText q.path q.text) .file

/-! ## The refresh -/

/-- The QML modules that are looked at: those with fresh registrations and those with a types file
below the output directory. -/
def modules (s : Stubs) (fresh : Fresh) : Refresh (List QmlModule) := do
  let paths ← glob s.outDir "**/types*.json"
  let found := paths.filterMap (QmlModule.ofTypesPath? s.outDir)
  return (SortedSet.insertAll (SortedSet.ofList fresh.keys) found).toList

/-- The first phase: all types files get their final content. The files with the types of other
modules come with it. -/
def settleAll (s : Stubs) (registrations : List Registration) (files stale : PathSet) :
    Refresh (List Path × List Settled) := do
  let base := s.base (← get).tree
  let fresh ← liftM (m := Except RefreshError) (s.group base registrations)
  let modules ← s.modules fresh
  let clean := files.filter fun p _ => !stale.contains p
  let metatypes ← glob s.metatypesDir "*_metatypes.json"
  let settled ← modules.mapM (s.settle base files clean fresh)
  return (metatypes, settled)

/-- The QML modules that have entries. -/
def keptOf (settled : List Settled) : List Settled := settled.filter fun m => !m.entries.isEmpty

/-- The QML modules that the registrar is run for. -/
def changedOf (settled : List Settled) : List Settled := (keptOf settled).filter (·.changed)

/-- The files with types that the registrar is told about: those of other modules and all types
files. -/
def foreignTypes (metatypes : List Path) (settled : List Settled) : List Path :=
  metatypes ++ (keptOf settled).map (·.typesFile)

/-- Bring the stubs in line with a scan. -/
def refresh (s : Stubs) (registrations : List Registration) (files stale : PathSet) :
    Refresh RefreshReport := do
  let (metatypes, settled) ← s.settleAll registrations files stale
  (changedOf settled).forM (s.generate (foreignTypes metatypes settled))
  let dirs := ((keptOf settled).foldl addQmldir .empty).values
  s.replaceQmldirs dirs
  return {
    regenerated := (changedOf settled).map (·.module)
    removed := (settled.filter fun m => m.entries.isEmpty).map (·.module)
    unchanged := ((keptOf settled).filter fun m => !m.changed).map (·.module)
    qmldirs := dirs.map (·.path) }

end Stubs

end QmlStubs
