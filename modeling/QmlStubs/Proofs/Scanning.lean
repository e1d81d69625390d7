import QmlStubs.Proofs.FileTimes
import QmlStubs.Proofs.Recording

/-!
# What a successful scan did

A scan goes through four stages, each of which can end it: the dirty files are imported, what was
loaded is recorded, the importer is given up, and the snapshot is kept. `Scan.completed` takes a
scan that succeeded apart once and for all; everything that is said of successful scans is said of
the stages named here.
-/

set_option autoImplicit false

namespace QmlStubs

namespace Scan

variable {σ : Type}

/-- The assessment that a scan works with. -/
def assess (settings : Settings) (files : List Path) (t : FileTree) : Assessment :=
  Assessment.ofFiles (previous settings t).1 t.modified? files

/-- The imports of a scan. -/
def importDirty (imp : Importer σ) (nameOf : Path → Except NamingError String)
    (settings : Settings) (files : List Path) (t : FileTree) (s : σ) : Imports σ :=
  importFiles imp nameOf t (assess settings files t).dirtyFiles Trace.empty.start s

/-- What a scan records after its imports. -/
def recordImports (imp : Importer σ) (nameOf : Path → Except NamingError String)
    (settings : Settings) (files : List Path) (t : FileTree) (s : σ) : Recorded :=
  let imports := importDirty imp nameOf settings files t s
  recordAll (recordOf? imp imports.state t) imports.trace.edges imports.requested
    ⟨(assess settings files t).surviving, .empty⟩

/-- The files of the modules that were executed. -/
def executedFiles (imp : Importer σ) (t : FileTree) (s : σ) : PathSet :=
  .ofList ((imp.loadedFiles s).toList.map t.canonicalOr)

/-- The report of a scan whose stages all succeed. -/
def reportOf (imp : Importer σ) (nameOf : Path → Except NamingError String) (settings : Settings)
    (files : List Path) (t : FileTree) (s : σ) : ScanReport where
  files
  assessment := assess settings files t
  recordedFiles := (recordImports imp nameOf settings files t s).files
  importedFiles := executedFiles imp t (importDirty imp nameOf settings files t s).state
  registrations := (imp.takeRegistrations (importDirty imp nameOf settings files t s).state).1
  snapshot := .ofModules (recordImports imp nameOf settings files t s).modules

/-- The stages of a scan that succeeded. -/
structure Completed (imp : Importer σ) (nameOf : Path → Except NamingError String)
    (settings : Settings) (files : List Path) (t : FileTree) (s : σ) (r : ScanReport)
    (after : FileTree) : Prop where
  imported : (importDirty imp nameOf settings files t s).outcome = .ok ()
  finished : (imp.finish (imp.takeRegistrations
    (importDirty imp nameOf settings files t s).state).2).1 = .ok ()
  kept : keep r.snapshot settings.outDir t = (.ok (), after)
  report : r = reportOf imp nameOf settings files t s

section Stages

variable {imp : Importer σ} {nameOf : Path → Except NamingError String} {settings : Settings}
  {files : List Path} {t : FileTree} {s : σ} {r : ScanReport}

/-- **A scan that succeeded went through all its stages.** -/
theorem completed (h : (ofFiles imp nameOf settings files t s).result = .ok r) :
    Completed imp nameOf settings files t s r (ofFiles imp nameOf settings files t s).tree := by
  generalize ho : ofFiles imp nameOf settings files t s = o at h ⊢
  unfold ofFiles at ho
  dsimp only at ho
  split at ho
  next =>
    subst ho
    exact absurd h (by simp)
  next himports =>
    split at ho
    next =>
      subst ho
      exact absurd h (by simp)
    next hfinish =>
      split at ho
      next =>
        subst ho
        exact absurd h (by simp)
      next hkeep =>
        subst ho
        cases h
        exact ⟨himports, congrArg Prod.fst hfinish, hkeep, rfl⟩

/-- A scan whose stages all succeed succeeds. -/
theorem result_of_completed {after : FileTree}
    (h : Completed imp nameOf settings files t s r after) :
    (ofFiles imp nameOf settings files t s).result = .ok r ∧
      (ofFiles imp nameOf settings files t s).tree = after := by
  obtain ⟨himported, hfinished, hkept, rfl⟩ := h
  unfold ofFiles
  dsimp only
  split
  next e he => exact absurd (he.symm.trans himported) (by simp)
  next =>
    split
    next e _ he => exact absurd ((congrArg Prod.fst he).symm.trans hfinished) (by simp)
    next =>
      split
      next e _ he =>
        exact absurd ((congrArg Prod.fst he).symm.trans (congrArg Prod.fst hkept)) (by simp)
      next u he => exact ⟨rfl, (congrArg Prod.snd he).symm.trans (congrArg Prod.snd hkept)⟩

end Stages

end Scan

end QmlStubs
