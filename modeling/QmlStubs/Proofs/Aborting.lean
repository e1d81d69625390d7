import QmlStubs.Importer.Table
import QmlStubs.Proofs.Scanning

/-!
# Scans that are given up

A scan can be given up while it imports: a file has no module name, an import fails, a module comes
from another file, or the importer does not end well. What the importer was asked for until then
cannot be read off the result, so the importer is made to keep a log (`Importer.logged`), and the log
is shown not to change a scan (`Scan.ofFiles_logged`).

`Scan.Imported` is one import after the other, each of a file from itself, and `Scan.Stops` says how
such a sequence ends in an error. **A scan that is given up while it imports has followed such a
sequence, has asked the importer for exactly its names, and has not touched the files**
(`Scan.aborted_scan`).
-/

set_option autoImplicit false

namespace QmlStubs

variable {σ : Type}

/-- The importer that also writes down the names it is asked for. -/
def Importer.logged (imp : Importer σ) : Importer (σ × List String) where
  importModule name s :=
    let r := imp.importModule name s.1
    ⟨r.outcome, r.events, (r.state, s.2 ++ [name])⟩
  loaded? s name := imp.loaded? s.1 name
  loadedFiles s := imp.loadedFiles s.1
  takeRegistrations s := ((imp.takeRegistrations s.1).1, (imp.takeRegistrations s.1).2, s.2)
  finish s := ((imp.finish s.1).1, (imp.finish s.1).2, s.2)

/-- An error of the imports, and not of keeping what they came to. -/
inductive ScanError.IsOfImports : ScanError → Prop
  | naming (cause : NamingError) : IsOfImports (.naming cause)
  | importFailed (module : String) (file : Path) (cause : ImportError) :
    IsOfImports (.importFailed module file cause)
  | otherFile (module : String) (expected : Path) (actual : Option Path) :
    IsOfImports (.otherFile module expected actual)
  | importer (cause : ImportError) : IsOfImports (.importer cause)

namespace Scan

variable {imp : Importer σ} {nameOf : Path → Except NamingError String} {t : FileTree}

/-! ## The log does not change a scan -/

/-- The log grows by the names that were requested, and nothing else is different. -/
theorem importFiles_logged (ds : List DirtyFile) (trace : Trace) (s : σ) (names : List String) :
    importFiles imp.logged nameOf t ds trace (s, names) =
      let r := importFiles imp nameOf t ds trace s
      ⟨r.outcome, r.requested, r.trace, r.notices, (r.state, names ++ r.requested)⟩ := by
  induction ds generalizing trace s names with
  | nil => simp [importFiles]
  | cons d ds ih =>
    cases hname : nameOf d.path with
    | error cause => simp [importFiles, hname]
    | ok module =>
      simp only [importFiles, hname, Importer.logged]
      cases hone : (imp.importModule module s).outcome with
      | error cause => rfl
      | ok loaded =>
        dsimp only
        split
        next =>
          -- the rest is imported with the longer log
          have hrest := ih (trace.recordAll (imp.importModule module s).events)
            (imp.importModule module s).state (names ++ [module])
          simp only [Importer.logged] at hrest
          rw [hrest]
          simp
        next => rfl

variable {settings : Settings} {files : List Path}

/-- **A log does not change a scan**: it comes to the same with and without it, and the log grows by
the names that were requested. -/
theorem ofFiles_logged (s : σ) (names : List String) :
    ofFiles imp.logged nameOf settings files t (s, names) =
      let o := ofFiles imp nameOf settings files t s
      ⟨o.result, o.notices, o.tree,
        (o.state, names ++ (importDirty imp nameOf settings files t s).requested)⟩ := by
  unfold ofFiles importDirty assess
  dsimp only
  rw [importFiles_logged]
  generalize importFiles imp nameOf t
    (Assessment.ofFiles (previous settings t).1 t.modified? files).dirtyFiles
    Trace.empty.start s = imports
  have hrecord : recordOf? imp.logged (imports.state, names ++ imports.requested) t =
      recordOf? imp imports.state t := rfl
  dsimp only
  rw [hrecord]
  cases imports.outcome with
  | error cause => rfl
  | ok _ =>
    dsimp only [Importer.logged]
    cases hfinish : imp.finish (imp.takeRegistrations imports.state).2 with
    | mk outcome s' =>
      cases outcome with
      | error cause => rfl
      | ok _ =>
        dsimp only
        split
        next => rfl
        next => rfl

/-! ## How the imports end -/

/-- Files that were imported one after the other, each from itself, with the names they go by. -/
inductive Imported (imp : Importer σ) (nameOf : Path → Except NamingError String) (t : FileTree) :
    σ → List DirtyFile → List String → σ → Prop
  | nil (s : σ) : Imported imp nameOf t s [] [] s
  | cons {s s' : σ} {d : DirtyFile} {rest : List DirtyFile} {module : String}
      {names : List String} {loaded : LoadedModule} (named : nameOf d.path = .ok module)
      (imported : (imp.importModule module s).outcome = .ok loaded)
      (origin : isOrigin t d.path loaded.file = true)
      (more : Imported imp nameOf t (imp.importModule module s).state rest names s') :
      Imported imp nameOf t s (d :: rest) (module :: names) s'

/-- The imports of files end in an error after these names were asked for. -/
inductive Stops (imp : Importer σ) (nameOf : Path → Except NamingError String) (t : FileTree)
    (s : σ) : List DirtyFile → List String → ScanError → Prop
  /-- A file has no name; the last name that was asked for is that of the file before it. -/
  | naming {s' : σ} {done rest : List DirtyFile} {d : DirtyFile} {names : List String}
      {cause : NamingError} (before : Imported imp nameOf t s done names s')
      (unnamed : nameOf d.path = .error cause) :
      Stops imp nameOf t s (done ++ d :: rest) names (.naming cause)
  /-- A file could not be imported, and was the last one that was asked for. -/
  | importing {s' : σ} {done rest : List DirtyFile} {d : DirtyFile} {names : List String}
      {module : String} {cause : ImportError} (before : Imported imp nameOf t s done names s')
      (named : nameOf d.path = .ok module)
      (failed : (imp.importModule module s').outcome = .error cause) :
      Stops imp nameOf t s (done ++ d :: rest) (names ++ [module])
        (.importFailed module d.path cause)
  /-- A module came from another file than the one that was asked for last. -/
  | origin {s' : σ} {done rest : List DirtyFile} {d : DirtyFile} {names : List String}
      {module : String} {loaded : LoadedModule} (before : Imported imp nameOf t s done names s')
      (named : nameOf d.path = .ok module)
      (imported : (imp.importModule module s').outcome = .ok loaded)
      (other : isOrigin t d.path loaded.file = false) :
      Stops imp nameOf t s (done ++ d :: rest) (names ++ [module])
        (.otherFile module d.path loaded.file)
  /-- All files were imported, and the importer did not end well. -/
  | finishing {s' : σ} {ds : List DirtyFile} {names : List String} {cause : ImportError}
      (all : Imported imp nameOf t s ds names s')
      (failed : (imp.finish (imp.takeRegistrations s').2).1 = .error cause) :
      Stops imp nameOf t s ds names (.importer cause)

/-- A file that was imported before all others. -/
theorem Stops.cons {s : σ} {d : DirtyFile} {ds : List DirtyFile} {module : String}
    {names : List String} {loaded : LoadedModule} {e : ScanError}
    (named : nameOf d.path = .ok module)
    (imported : (imp.importModule module s).outcome = .ok loaded)
    (origin : isOrigin t d.path loaded.file = true)
    (h : Stops imp nameOf t (imp.importModule module s).state ds names e) :
    Stops imp nameOf t s (d :: ds) (module :: names) e := by
  cases h with
  | naming before unnamed => exact .naming (.cons named imported origin before) unnamed
  | importing before hname failed =>
    exact .importing (.cons named imported origin before) hname failed
  | origin before hname hloaded other =>
    exact .origin (.cons named imported origin before) hname hloaded other
  | finishing all failed => exact .finishing (.cons named imported origin all) failed

/-- Imports that all succeeded are one import after the other. -/
theorem imported_of_ok {ds : List DirtyFile} {trace : Trace} {s : σ}
    (h : (importFiles imp nameOf t ds trace s).outcome = .ok ()) :
    Imported imp nameOf t s ds (importFiles imp nameOf t ds trace s).requested
      (importFiles imp nameOf t ds trace s).state := by
  induction ds generalizing trace s with
  | nil => exact .nil s
  | cons d ds ih =>
    rw [importFiles] at h ⊢
    cases hname : nameOf d.path with
    | error cause => simp [hname] at h
    | ok module =>
      simp only [hname] at h ⊢
      cases hone : (imp.importModule module s).outcome with
      | error cause => simp [hone] at h
      | ok loaded =>
        simp only [hone] at h ⊢
        split at h
        next horigin =>
          rw [if_pos horigin]
          exact .cons hname hone horigin (ih h)
        next => exact absurd h (by simp)

/-- Imports that failed stop at the file that failed. -/
theorem stops_of_error {ds : List DirtyFile} {trace : Trace} {s : σ} {e : ScanError}
    (h : (importFiles imp nameOf t ds trace s).outcome = .error e) :
    Stops imp nameOf t s ds (importFiles imp nameOf t ds trace s).requested e := by
  induction ds generalizing trace s with
  | nil => exact absurd h (by simp [importFiles])
  | cons d ds ih =>
    rw [importFiles] at h ⊢
    cases hname : nameOf d.path with
    | error cause =>
      simp only [hname, Except.error.injEq] at h ⊢
      subst h
      have hfirst : Stops imp nameOf t s ([] ++ d :: ds) [] (.naming cause) := .naming (.nil s) hname
      exact hfirst
    | ok module =>
      simp only [hname] at h ⊢
      cases hone : (imp.importModule module s).outcome with
      | error cause =>
        simp only [hone, Except.error.injEq] at h ⊢
        subst h
        have hfirst : Stops imp nameOf t s ([] ++ d :: ds) ([] ++ [module])
            (.importFailed module d.path cause) := .importing (.nil s) hname hone
        exact hfirst
      | ok loaded =>
        simp only [hone] at h ⊢
        split at h
        next horigin =>
          rw [if_pos horigin]
          exact .cons hname hone horigin (ih h)
        next hother =>
          rw [if_neg hother]
          cases h
          have hfirst : Stops imp nameOf t s ([] ++ d :: ds) ([] ++ [module])
              (.otherFile module d.path loaded.file) :=
            .origin (.nil s) hname hone (by simpa using hother)
          exact hfirst

/-! ## Scans that are given up -/

variable {s : σ} {e : ScanError}

/-- A scan whose imports fail fails with them. -/
theorem result_of_outcome (h : (importDirty imp nameOf settings files t s).outcome = .error e) :
    (ofFiles imp nameOf settings files t s).result = .error e := by
  unfold ofFiles
  dsimp only
  split
  next cause himports => exact congrArg _ (Except.error.inj (himports.symm.trans h))
  next himports => exact absurd (himports.symm.trans h) (by simp)

/-- A scan that an error of its imports ended has written nothing, and has stopped at it. -/
theorem of_error_of_imports (h : (ofFiles imp nameOf settings files t s).result = .error e)
    (he : e.IsOfImports) :
    (ofFiles imp nameOf settings files t s).tree = t ∧
      Stops imp nameOf t s (assess settings files t).dirtyFiles
        (importDirty imp nameOf settings files t s).requested e := by
  generalize ho : ofFiles imp nameOf settings files t s = o at h ⊢
  unfold ofFiles at ho
  dsimp only at ho
  split at ho
  next cause himports =>
    subst ho
    cases h
    exact ⟨rfl, stops_of_error himports⟩
  next himports =>
    have hall : Imported imp nameOf t s (assess settings files t).dirtyFiles
        (importDirty imp nameOf settings files t s).requested
        (importDirty imp nameOf settings files t s).state := imported_of_ok himports
    split at ho
    next cause _ hfinish =>
      subst ho
      cases h
      exact ⟨rfl, .finishing hall (congrArg Prod.fst hfinish)⟩
    next =>
      split at ho
      next cause _ hkeep =>
        -- an error of keeping the snapshot is none of the imports
        subst ho
        cases h
        unfold keep at hkeep
        split at hkeep
        next => cases hkeep; nomatch he
        next =>
          split at hkeep
          next => cases hkeep; nomatch he
          next => exact absurd (congrArg Prod.fst hkeep) (by simp)
      next =>
        subst ho
        exact absurd h (by simp)

/-- **A scan that is given up because of a name, an import, an origin or the end of the importer
changes no file, and has asked the importer for the names of the dirty files up to the one that it
stopped at.** -/
theorem aborted_scan {σ : Type} (imp : Importer σ) (nameOf : Path → Except NamingError String)
    (settings : Settings) (files : List Path) (t : FileTree) (s : σ) (e : ScanError)
    (h : (ofFiles imp nameOf settings files t s).result = .error e) (he : e.IsOfImports) :
    (ofFiles imp nameOf settings files t s).tree = t ∧
      (ofFiles imp.logged nameOf settings files t (s, [])).result = .error e ∧
      Stops imp nameOf t s (assess settings files t).dirtyFiles
        (ofFiles imp.logged nameOf settings files t (s, [])).state.2 e := by
  obtain ⟨htree, hstops⟩ := of_error_of_imports h he
  rw [ofFiles_logged]
  refine ⟨htree, h, ?_⟩
  rw [List.nil_append]
  exact hstops

/-! ## A small project that cannot be imported -/

/-- Three files and no output directory. -/
def failingTree : FileTree where
  entries := .ofList [(["a.py"], .file .empty ⟨100, 5⟩ false),
    (["b.py"], .file .empty ⟨101, 0⟩ false), (["c.py"], .file .empty ⟨102, 0⟩ false)]
  current := []
  clock := ⟨200, 0⟩

/-- `b` fails. -/
def failingTable : ModuleTable := .ofList
  [("a", ⟨some ⟨"/a.py"⟩, [], none, []⟩), ("b", ⟨some ⟨"/b.py"⟩, [], some "boom", []⟩),
    ("c", ⟨some ⟨"/c.py"⟩, [], none, []⟩)]

/-- A scan of the three files. -/
def failingScan {σ : Type} (imp : Importer σ) (s : σ) : Outcome σ :=
  ofFiles imp (ModuleName.ofFile [⟨"/"⟩]) Settings.default [⟨"/a.py"⟩, ⟨"/b.py"⟩, ⟨"/c.py"⟩]
    failingTree s

/-- The scan stops at `b`, after it asked for `a` and `b`, and leaves the files as they are. -/
theorem failing_scan_is_aborted :
    let imp := TableImporter.ofTable failingTable
    (failingScan imp .empty).tree = failingTree ∧
      (failingScan imp.logged (.empty, [])).state.2 = ["a", "b"] ∧
      Stops imp (ModuleName.ofFile [⟨"/"⟩]) failingTree .empty
        (assess Settings.default [⟨"/a.py"⟩, ⟨"/b.py"⟩, ⟨"/c.py"⟩] failingTree).dirtyFiles
        (failingScan imp.logged (.empty, [])).state.2
        (.importFailed "b" ⟨"/b.py"⟩ (.failed "b" "boom")) := by
  intro imp
  have herror : (failingScan imp .empty).result =
      .error (.importFailed "b" ⟨"/b.py"⟩ (.failed "b" "boom")) :=
    result_of_outcome (by decide +kernel)
  obtain ⟨htree, -, hstops⟩ := aborted_scan imp (ModuleName.ofFile [⟨"/"⟩]) Settings.default
    [⟨"/a.py"⟩, ⟨"/b.py"⟩, ⟨"/c.py"⟩] failingTree .empty _ herror
    (.importFailed "b" ⟨"/b.py"⟩ (.failed "b" "boom"))
  refine ⟨?_, by decide +kernel, ?_⟩
  · unfold failingScan
    exact htree
  · unfold failingScan
    exact hstops

end Scan

end QmlStubs
