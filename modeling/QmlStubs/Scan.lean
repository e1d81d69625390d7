import QmlStubs.Discovery
import QmlStubs.Importer.Basic
import QmlStubs.ModuleName
import QmlStubs.Notice
import QmlStubs.Settings

/-!
# Scans

A scan is one incremental run. It compares the snapshot of the last run with the current files,
imports exactly the dirty ones, records what was imported together with everything that was seen to
be loaded by it, and keeps the result as the next snapshot. Nothing is written before all imports
have succeeded.
-/

set_option autoImplicit false

namespace QmlStubs

/-- Why a scan is given up. -/
inductive ScanError where
  /-- The module that was imported comes from another file than the one that is dirty. -/
  | otherFile (module : String) (expected : Path) (actual : Option Path)
  | importFailed (module : String) (file : Path) (cause : ImportError)
  | importer (cause : ImportError)
  | naming (cause : NamingError)
  | discovery (cause : DiscoveryError)
  | snapshot (cause : SnapshotError)
  | file (cause : FileError)
  deriving DecidableEq

/-- The message of an error. -/
def ScanError.message : ScanError → String
  | otherFile module expected actual =>
    "Imported module " ++ module ++ " was expected to come from " ++ expected.text ++
      ", but instead came from " ++ (actual.map (·.text)).getD "<no file>"
  | importFailed module source cause =>
    "Failed to import " ++ module ++ " (" ++ source.text ++ "): " ++ cause.message
  | importer cause => "Loader error: " ++ cause.message
  | naming cause => "Naming error: " ++ cause.message
  | discovery cause => "Discovery error: " ++ cause.message
  | snapshot cause => "Metadata error: " ++ cause.message
  | file cause => "IO error: " ++ cause.message

/-- What a scan found out. -/
structure ScanReport where
  /-- The current source files. -/
  files : List Path
  assessment : Assessment
  /-- The files that were recorded. -/
  recordedFiles : PathSet
  /-- The files of all modules that were executed. -/
  importedFiles : PathSet
  registrations : List Registration
  /-- The snapshot that was kept. -/
  snapshot : Snapshot

/-- The files whose former results no longer count: the dirty ones, the backing files of dirty
modules, and all files that were recorded or executed. A clean module that a dirty one imports
registers its classes again, so its former entries are replaced as well. -/
def ScanReport.staleFiles (r : ScanReport) : PathSet :=
  .ofList (r.assessment.dirtyFiles.map (·.path) ++ r.assessment.dirtyBacking.toList ++
    r.recordedFiles.toList ++ r.importedFiles.toList)

namespace Scan

variable {σ : Type}

/-! ## Importing the dirty files -/

/-- What importing the dirty files came to. -/
structure Imports (σ : Type) where
  outcome : Except ScanError Unit
  /-- The modules that the importer was asked for, in order. -/
  requested : List String
  trace : Trace
  notices : List Notice
  state : σ

/-- Whether a file is the one that is expected, through all links. -/
def isOrigin (t : FileTree) (expected : Path) (actual : Option Path) : Bool :=
  match actual with
  | some p => (t.canonicalOr expected).same (t.canonicalOr p)
  | none => false

/-- Import dirty files in order, until one fails. -/
def importFiles (imp : Importer σ) (nameOf : Path → Except NamingError String) (t : FileTree) :
    List DirtyFile → Trace → σ → Imports σ
  | [], trace, s => ⟨.ok (), [], trace, [], s⟩
  | d :: rest, trace, s =>
    match nameOf d.path with
    | .error e => ⟨.error (.naming e), [], trace, [], s⟩
    | .ok module =>
      let notice := Notice.importingModule module d.reason
      let r := imp.importModule module s
      let trace := trace.recordAll r.events
      match r.outcome with
      | .error e => ⟨.error (.importFailed module d.path e), [module], trace, [notice], r.state⟩
      | .ok loaded =>
        if isOrigin t d.path loaded.file then
          let more := importFiles imp nameOf t rest trace r.state
          { more with
            requested := module :: more.requested
            notices := notice :: more.notices }
        else
          ⟨.error (.otherFile module d.path loaded.file), [module], trace, [notice], r.state⟩

/-! ## Recording what was loaded -/

/-- The record of a name with the dependencies that were traced, if it is loaded from a file that
is there. -/
def recordOf? (imp : Importer σ) (s : σ) (t : FileTree) (name : String)
    (dependencies : SortedSet String) : Option ModuleRecord := do
  let file := t.canonicalOr (← (← imp.loaded? s name).file)
  return ⟨← t.modified? file, file, dependencies⟩

/-- The known modules, and the files that were recorded. -/
structure Recorded where
  modules : Modules
  files : PathSet

/-- Record the queued names and what they depend on, except names that are known already. A name
without a file becomes a tombstone, and its dependencies are not followed. `edges` are the traced
dependencies of the names that were not followed yet. -/
def recordAll (recordOf : String → SortedSet String → Option ModuleRecord)
    (edges : SortedMap String (SortedSet String)) (queue : List String) (known : Recorded) :
    Recorded :=
  match queue with
  | [] => known
  | name :: rest =>
    if known.modules.contains name then recordAll recordOf edges rest known
    else
      let dependencies := (edges.find? name).getD .empty
      match recordOf name dependencies with
      | none =>
        recordAll recordOf edges rest
          { known with modules := known.modules.insert name none }
      | some r =>
        let known :=
          ⟨known.modules.insert name (some r), known.files.add r.path⟩
        if _h : edges.contains name = true then
          recordAll recordOf (edges.erase name) (rest ++ dependencies.toList) known
        else recordAll recordOf edges rest known
termination_by (edges.size, queue.length)
decreasing_by
  · exact Prod.Lex.right _ (by simp)
  · exact Prod.Lex.right _ (by simp)
  · exact Prod.Lex.left _ _ (SortedMap.size_erase_lt _h)
  · exact Prod.Lex.right _ (by simp)

/-! ## The scan -/

/-- What a scan came to, with the tree and the importer after it. -/
structure Outcome (σ : Type) where
  result : Except ScanError ScanReport
  notices : List Notice
  tree : FileTree
  state : σ

/-- The snapshot that a scan starts from, and the notice if one was found but is not used. -/
def previous (settings : Settings) (t : FileTree) : Snapshot × List Notice :=
  if settings.forceRebuild then (.empty, [])
  else
    match Snapshot.load t settings.outDir with
    | (s, none) => (s, [])
    | (s, some e) => (s, [.discarding (Snapshot.pathIn settings.outDir) e])

/-- Keep a snapshot in the output directory, which is made if it is not there. -/
def keep (snapshot : Snapshot) (outDir : Path) (t : FileTree) :
    Except ScanError Unit × FileTree :=
  match t.run (FileTree.makeDirectories outDir) with
  | (.error e, t) => (.error (.file e), t)
  | (.ok _, t) =>
    match t.run (snapshot.save outDir) with
    | (.error e, t) => (.error (.snapshot (.file e)), t)
    | (.ok _, t) => (.ok (), t)

/-- Scan a list of files without links and dots. -/
def ofFiles (imp : Importer σ) (nameOf : Path → Except NamingError String) (settings : Settings)
    (files : List Path) (t : FileTree) (s : σ) : Outcome σ :=
  let (before, discarded) := previous settings t
  let assessment := Assessment.ofFiles before t.modified? files
  let counted := Notice.importing assessment.dirtyFiles.length files.length
  let imports := importFiles imp nameOf t assessment.dirtyFiles Trace.empty.start s
  let notices := discarded ++ counted :: imports.notices
  match imports.outcome with
  | .error e => ⟨.error e, notices, t, imports.state⟩
  | .ok _ =>
    let recorded := recordAll (recordOf? imp imports.state t) imports.trace.edges
      imports.requested ⟨assessment.surviving, .empty⟩
    let importedFiles := PathSet.ofList ((imp.loadedFiles imports.state).toList.map t.canonicalOr)
    let (registrations, s) := imp.takeRegistrations imports.state
    match imp.finish s with
    | (.error e, s) => ⟨.error (.importer e), notices, t, s⟩
    | (.ok _, s) =>
      let snapshot := Snapshot.ofModules recorded.modules
      match keep snapshot settings.outDir t with
      | (.error e, t) => ⟨.error e, notices, t, s⟩
      | (.ok _, t) =>
        ⟨.ok ⟨files, assessment, recorded.files, importedFiles, registrations, snapshot⟩,
          notices, t, s⟩

/-- Find the source files and scan them. -/
def run (imp : Importer σ) (nameOf : Path → Except NamingError String) (settings : Settings)
    (t : FileTree) (s : σ) : Outcome σ :=
  match Discovery.sources t settings.inDirs settings.ignore settings.extension with
  | .error e => ⟨.error (.discovery e), [], t, s⟩
  | .ok files => ofFiles imp nameOf settings files t s

end Scan

end QmlStubs
