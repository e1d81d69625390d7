import QmlStubs.Proofs.Convergence
import QmlStubs.Proofs.Importing

/-!
# Which files a scan records

Every module that a scan asked for is known in the end, but recording leaves a name alone that
survived from the former snapshot. So a dirty file gets a record of its own, with the imports that
were traced in this scan, unless its module has the name of an entry that survived
(`Scan.imported_files_recorded`). That happens when two search roots hold files of one name: the
former record is for the file below the other root, which stays clean, and the new file is not
recorded, however often it is imported (`Scan.leavesUnrecorded_twin`).
-/

set_option autoImplicit false

namespace QmlStubs

open Assessment

/-- No path that a module is loaded from only looks like that of a scanned file, as one with a slash
behind the file does, which leads nowhere. -/
def Importer.ReadsFiles {σ : Type} (imp : Importer σ) (t : FileTree) (files : List Path) : Prop :=
  ∀ s name p, imp.IsLoadedFrom s name p → ∀ f ∈ files, (t.canonicalOr p).same f = true →
    t.modified? (t.canonicalOr p) = t.modified? f

namespace Scan

variable {σ : Type} {imp : Importer σ} {nameOf : Path → Except NamingError String}
  {settings : Settings} {files : List Path} {t : FileTree} {s : σ} {r : ScanReport}
  {after : FileTree}

/-! ## What was asked for -/

/-- Every queued name is known after the recording. -/
theorem contains_recordAll (recordOf : String → SortedSet String → Option ModuleRecord)
    (edges : SortedMap String (SortedSet String)) {queue : List String} (known : Recorded)
    {name : String} (hname : name ∈ queue) :
    (recordAll recordOf edges queue known).modules.contains name = true := by
  rw [contains_recordAll_iff]
  cases hnew : known.modules.contains name with
  | true => exact .inl rfl
  | false => exact .inr (.root hname hnew)

/-- An entry that recording adds is made from what is loaded and from the traced imports. -/
theorem entry_of_added {name : String} {e : ModuleEntry}
    (he : (recordImports imp nameOf settings files t s).modules.find? name = some e)
    (hnew : (assess settings files t).surviving.contains name = false) :
    recordOf? imp (importDirty imp nameOf settings files t s).state t name
      ((importDirty imp nameOf settings files t s).trace.dependenciesOf name) = e := by
  rcases (find?_recordAll _ _ _ _).1 he with hold | ⟨-, hmade⟩
  · rw [SortedMap.contains_of_find? hold] at hnew
    exact absurd hnew (by simp)
  · exact hmade

/-- Dirty files are current files. -/
theorem mem_files_of_dirty {d : DirtyFile} (hd : d ∈ (assess settings files t).dirtyFiles) :
    d.path ∈ files := by
  obtain ⟨f, hf, hmap⟩ := List.mem_filterMap.1 hd
  obtain ⟨reason, -, rfl⟩ := Option.map_eq_some_iff.1 hmap
  exact hf

/-- **A dirty file has the record of its module**, with the imports that were traced, unless the
module survived. -/
theorem record_of_dirty (hkeeps : imp.KeepsFiles)
    (hcanonical : ∀ f ∈ files, (t.canonicalOr f).same f = true) (hreads : imp.ReadsFiles t files)
    (htimes : ∀ f ∈ files, (t.modified? f).isSome = true)
    (hdone : Completed imp nameOf settings files t s r after) {d : DirtyFile}
    (hd : d ∈ r.assessment.dirtyFiles) :
    ∃ module, nameOf d.path = .ok module ∧
      module ∈ (importDirty imp nameOf settings files t s).requested ∧
      (r.assessment.surviving.contains module = false → ∃ record : ModuleRecord,
        r.snapshot.modules.find? module = some (some record) ∧ record.path.same d.path = true ∧
        record.dependencies =
          (importDirty imp nameOf settings files t s).trace.dependenciesOf module) := by
  rw [hdone.report] at hd ⊢
  obtain ⟨module, p, hname, hmem, ⟨m, hm, hfile⟩, horigin⟩ :=
    exists_isLoadedFrom_of_ok hkeeps hdone.imported hd
  have hf := mem_files_of_dirty hd
  have hsame : (t.canonicalOr p).same d.path = true := by
    have hcs := (eq_of_beq horigin).symm.trans (eq_of_beq (hcanonical _ hf))
    exact beq_iff_eq.2 hcs
  refine ⟨module, hname, hmem, fun hnew => ?_⟩
  obtain ⟨e, he⟩ := SortedMap.contains_iff.1 (contains_recordAll
    (recordOf? imp (importDirty imp nameOf settings files t s).state t)
    (importDirty imp nameOf settings files t s).trace.edges
    ⟨(assess settings files t).surviving, .empty⟩ hmem)
  obtain ⟨time, htime⟩ := Option.isSome_iff_exists.1 (htimes _ hf)
  have hread : t.modified? (t.canonicalOr p) = some time :=
    (hreads _ _ _ ⟨m, hm, hfile⟩ _ hf hsame).trans htime
  have hentry := entry_of_added he hnew
  unfold recordOf? at hentry
  dsimp only [bind, Option.bind, pure] at hentry
  have hm' : imp.loaded? (importDirty imp nameOf settings files t s).state module = some m := hm
  rw [hm'] at hentry
  dsimp only at hentry
  rw [hfile] at hentry
  dsimp only at hentry
  rw [hread] at hentry
  exact ⟨⟨time, t.canonicalOr p, _⟩, he.trans (congrArg some hentry.symm), hsame, rfl⟩

/-! ## The current files -/

/-- A file with a record is not new to whoever assesses the snapshot. -/
theorem ne_new_of_isKnown {snapshot : Snapshot} {f : Path} (hf : IsKnown snapshot.modules f)
    {stat : Path → Option Binary64} {files' : List Path} {d : DirtyFile}
    (hd : d ∈ (Assessment.ofFiles snapshot stat files').dirtyFiles)
    (hsame : d.path.same f = true) : d.reason ≠ .new := by
  obtain ⟨g, -, hmap⟩ := List.mem_filterMap.1 hd
  obtain ⟨reason, hreason, rfl⟩ := Option.map_eq_some_iff.1 hmap
  obtain ⟨name, hname⟩ := exists_nameOfFile_iff.2 hf
  have hindex : (moduleOfFile snapshot.modules).find? g.components = some name := by
    have hcs : g.components = f.components := eq_of_beq hsame
    rw [hcs]
    exact hname
  unfold reasonFor? at hreason
  rw [hindex] at hreason
  dsimp only at hreason ⊢
  split at hreason
  next =>
    rw [← Option.some.inj hreason]
    simp
  next =>
    rw [← Option.some.inj hreason]
    simp
  next => exact absurd hreason (by simp)

/-- A current file that is not dirty is in the index, and its module is clean. -/
theorem clean_of_not_dirty {f : Path} (hf : f ∈ files)
    (hclean : ∀ d ∈ (assess settings files t).dirtyFiles, d.path ≠ f) :
    ∃ name, nameOfFile (previous settings t).1.modules f = some name ∧
      (finalStates (previous settings t).1.modules t.modified?).find? name = some .clean := by
  by_contra hno
  obtain ⟨d, hd, hpath⟩ := (exists_dirtyFile_iff hf).2 fun name hlast hstate =>
    hno ⟨name, nameOfFile_eq_some.2 hlast, hstate⟩
  exact hclean d hd hpath

/-- A current file that is not dirty is the file of an entry that survived. -/
theorem isKnown_surviving {f : Path} (hf : f ∈ files)
    (hclean : ∀ d ∈ (assess settings files t).dirtyFiles, d.path ≠ f) :
    IsKnown (assess settings files t).surviving f := by
  obtain ⟨name, hname, hstate⟩ := clean_of_not_dirty hf hclean
  obtain ⟨record, hrecord, hsame⟩ := isRecordedFor_of_nameOfFile hname
  exact ⟨name, record, find?_surviving.2 ⟨hrecord, hstate, f, hf, name, hname, .refl⟩, hsame⟩

/-- What survived is kept. -/
theorem find?_of_surviving {name : String} {e : ModuleEntry}
    (h : (assess settings files t).surviving.find? name = some e) :
    (recordImports imp nameOf settings files t s).modules.find? name = some e :=
  (find?_recordAll _ _ _ _).2 (.inl h)

/-- **Every imported file is recorded, unless its module has the name of an entry that survived.**
A dirty file is the file of the record under the name of its module, with the imports that were
traced, and every current file is the file of some record, so no later assessment finds it new. -/
theorem imported_files_recorded (imp : Importer σ) (nameOf : Path → Except NamingError String)
    (settings : Settings) (files : List Path) (t : FileTree) (s : σ) (r : ScanReport)
    (hkeeps : imp.KeepsFiles) (hreads : imp.ReadsFiles t files)
    (hcanonical : ∀ f ∈ files, (t.canonicalOr f).same f = true)
    (htimes : ∀ f ∈ files, (t.modified? f).isSome = true)
    (h : (ofFiles imp nameOf settings files t s).result = .ok r) :
    (∀ d ∈ r.assessment.dirtyFiles, ∃ module, nameOf d.path = .ok module ∧
      (r.assessment.surviving.contains module = false → ∃ record : ModuleRecord,
        r.snapshot.modules.find? module = some (some record) ∧ record.path.same d.path = true ∧
        record.dependencies =
          (importDirty imp nameOf settings files t s).trace.dependenciesOf module)) ∧
    ∀ f ∈ files, (∀ d ∈ r.assessment.dirtyFiles, d.path = f → ∀ module,
        nameOf f = .ok module → r.assessment.surviving.contains module = false) →
      IsKnown r.snapshot.modules f ∧
      ∀ (stat : Path → Option Binary64) (files' : List Path),
        ∀ d ∈ (Assessment.ofFiles r.snapshot stat files').dirtyFiles,
          d.path.same f = true → d.reason ≠ .new := by
  have hdone := completed h
  refine ⟨fun d hd => ?_, fun f hf hnot => ?_⟩
  · obtain ⟨module, hname, -, hrecord⟩ :=
      record_of_dirty hkeeps hcanonical hreads htimes hdone hd
    exact ⟨module, hname, hrecord⟩
  · have hknown : IsKnown r.snapshot.modules f := by
      by_cases hdirty : ∃ d ∈ r.assessment.dirtyFiles, d.path = f
      · obtain ⟨d, hd, rfl⟩ := hdirty
        obtain ⟨module, hname, -, hrecord⟩ :=
          record_of_dirty hkeeps hcanonical hreads htimes hdone hd
        obtain ⟨record, hfind, hsame, -⟩ := hrecord (hnot d hd rfl module hname)
        exact ⟨module, record, hfind, hsame⟩
      · rw [hdone.report] at hdirty ⊢
        obtain ⟨name, record, hfind, hsame⟩ := isKnown_surviving hf
          fun d hd he => hdirty ⟨d, hd, he⟩
        exact ⟨name, record, find?_of_surviving hfind, hsame⟩
    exact ⟨hknown, fun stat files' d hd hsame => ne_new_of_isKnown hknown hd hsame⟩

/-! ## Two roots -/

/-- The files of a table lead where the scanned files lead that they are the same as. -/
theorem readsFiles_ofTable {table : ModuleTable}
    (h : ∀ e ∈ table.entries, ∀ p ∈ e.2.file, ∀ f ∈ files, (t.canonicalOr p).same f = true →
      t.modified? (t.canonicalOr p) = t.modified? f) :
    (TableImporter.ofTable table).ReadsFiles t files := by
  intro s name p hp f hf hsame
  obtain ⟨m, hm, hfile⟩ := Option.bind_eq_some_iff.1 (TableImporter.isLoadedFrom_iff.1 hp).2
  exact h (name, m) (SortedMap.mem_entries.2 hm) p hfile f hf hsame

/-- A scan of two files that have no records yet records both. -/
theorem pair_files_recorded : ∃ r, (pairScan sampleSettings pairTree).result = .ok r ∧
    ∀ f ∈ pairFiles, IsKnown r.snapshot.modules f := by
  have hok : (pairScan sampleSettings pairTree).result.toBool = true := by decide +kernel
  obtain ⟨r, hr⟩ := exists_ok_of_toBool hok
  have hnone : r.assessment.surviving = .empty := by
    rw [(completed hr).report]
    decide +kernel
  obtain ⟨-, hfiles⟩ := imported_files_recorded _ _ sampleSettings pairFiles pairTree
    TableImporter.State.empty r (TableImporter.keepsFiles pairTable)
    (readsFiles_ofTable (by decide +kernel)) (by decide +kernel) (by decide +kernel) hr
  refine ⟨r, hr, fun f hf => (hfiles f hf fun _ _ _ module _ => ?_).1⟩
  rw [hnone]
  rfl

/-- Two files of one name below different roots, and a stored snapshot that knows the first one. -/
def twinTree : FileTree where
  entries := .ofList [(["one"], .directory ⟨100, 0⟩), (["one", "a.py"], .file .empty ⟨100, 0⟩ false),
    (["two"], .directory ⟨100, 0⟩), (["two", "a.py"], .file .empty ⟨101, 0⟩ false),
    (["out"], .directory ⟨100, 0⟩),
    (["out", "metadata.json"], .file stored.toUTF8 ⟨100, 0⟩ false)]
  current := []
  clock := ⟨200, 0⟩
where
  stored : String :=
    "\x7b\"modules\": \x7b\"a\": \x7b\"modification_time\": 100.0, \"path\": \"/one/a.py\"\x7d\x7d, " ++
      "\"generating_version\": \"0.3.0\"\x7d"

/-- The name is imported from the second root. -/
def twinTable : ModuleTable := .ofList [("a", ⟨some ⟨"/two/a.py"⟩, [], none, []⟩)]

/-- Both files. -/
def twinFiles : List Path := [⟨"/one/a.py"⟩, ⟨"/two/a.py"⟩]

/-- A scan in which a dirty file is imported from that very file and has no record afterwards. -/
def LeavesUnrecorded (table : ModuleTable) (roots files : List Path) (t : FileTree) (f : Path) :
    Prop :=
  (∀ f ∈ files, t.canonicalOr f = f ∧ (t.modified? f).isSome = true) ∧
    ∃ r, (ofFiles (TableImporter.ofTable table) (ModuleName.ofFile roots) sampleSettings files t
      .empty).result = .ok r ∧
      (∃ d ∈ r.assessment.dirtyFiles, d.path = f) ∧ ¬ IsKnown r.snapshot.modules f

/-- The entry that survives keeps the name for the first file. -/
theorem leavesUnrecorded_twin :
    LeavesUnrecorded twinTable [⟨"/two"⟩, ⟨"/one"⟩] twinFiles twinTree ⟨"/two/a.py"⟩ := by
  refine ⟨by decide +kernel, ?_⟩
  obtain ⟨r, hr⟩ := exists_ok_of_toBool (show (ofFiles (TableImporter.ofTable twinTable)
    (ModuleName.ofFile [⟨"/two"⟩, ⟨"/one"⟩]) sampleSettings twinFiles twinTree .empty).result.toBool =
      true by decide +kernel)
  have hdone := completed hr
  generalize hrecord : ({ modified := .ofSeconds 100 0, path := ⟨"/one/a.py"⟩, dependencies := .empty } :
    ModuleRecord) = record
  have hprevious : (previous sampleSettings twinTree).1.modules = .ofList [("a", some record)] := by
    rw [← hrecord]
    decide +kernel
  have hsurvives : (assess sampleSettings twinFiles twinTree).surviving.find? "a" =
      some (some record) := by
    refine find?_surviving.2 ⟨?_, ?_, ⟨"/one/a.py"⟩, by decide, "a", ?_, .refl⟩
    all_goals rw [hprevious, ← hrecord]
    all_goals decide +kernel
  have hrequested : (importDirty (TableImporter.ofTable twinTable)
      (ModuleName.ofFile [⟨"/two"⟩, ⟨"/one"⟩]) sampleSettings twinFiles twinTree .empty).requested =
      ["a"] := by decide +kernel
  have hkept : r.snapshot.modules = (assess sampleSettings twinFiles twinTree).surviving := by
    rw [hdone.report]
    show (recordImports _ _ _ _ _ _).modules = _
    unfold recordImports
    dsimp only
    rw [hrequested, recordAll, if_pos (SortedMap.contains_of_find? hsurvives), recordAll]
  refine ⟨r, hr, ⟨⟨⟨"/two/a.py"⟩, .new⟩, ?_, rfl⟩, ?_⟩
  · rw [hdone.report]
    decide +kernel
  · rintro ⟨name, record', hfind, hsame⟩
    rw [hkept] at hfind
    have hbefore := (find?_surviving.1 hfind).1
    rw [hprevious] at hbefore
    have hmem := SortedMap.mem_of_find?_ofList hbefore
    rw [List.mem_singleton] at hmem
    obtain ⟨-, hrec⟩ := Prod.mk.inj hmem
    rw [Option.some.inj hrec, ← hrecord] at hsame
    exact absurd hsame (by decide +kernel)

/-- The name is imported from a path with a slash at its end. -/
def slashTable : ModuleTable := .ofList [("a", ⟨some ⟨"/a.py/"⟩, [], none, []⟩)]

/-- A path with a slash behind the file leads nowhere, so its module gets a tombstone. -/
theorem leavesUnrecorded_slash :
    LeavesUnrecorded slashTable [⟨"/"⟩] [⟨"/a.py"⟩] pairTree ⟨"/a.py"⟩ := by
  refine ⟨by decide +kernel, ?_⟩
  obtain ⟨r, hr⟩ := exists_ok_of_toBool (show (ofFiles (TableImporter.ofTable slashTable)
    (ModuleName.ofFile [⟨"/"⟩]) sampleSettings [⟨"/a.py"⟩] pairTree .empty).result.toBool =
      true by decide +kernel)
  have hdone := completed hr
  refine ⟨r, hr, ⟨⟨⟨"/a.py"⟩, .new⟩, ?_, rfl⟩, ?_⟩
  · rw [hdone.report]
    decide +kernel
  · rintro ⟨name, record, hfind, -⟩
    rw [hdone.report] at hfind
    have hnone : (assess sampleSettings [⟨"/a.py"⟩] pairTree).surviving = .empty := by decide +kernel
    have hmade := entry_of_added hfind (by rw [hnone]; rfl)
    obtain ⟨p, hp, hpath⟩ := exists_isLoadedFrom_of_record hmade
    obtain ⟨m, hm, hfile⟩ := Option.bind_eq_some_iff.1 (TableImporter.isLoadedFrom_iff.1 hp).2
    obtain ⟨-, rfl⟩ := Prod.mk.inj (List.mem_singleton.1 (SortedMap.mem_of_find?_ofList hm))
    have htime := (recordOf?_eq_some hmade).1
    rw [hpath, ← Option.some.inj hfile] at htime
    have hread : pairTree.modified? (pairTree.canonicalOr ⟨"/a.py/"⟩) = none := by decide +kernel
    exact absurd (hread.symm.trans htime) (by simp)

/-- **An imported file can stay without a record**: when an entry that survived has the name of its
module, and when the importer names the file by a path that leads nowhere. -/
theorem imports_stay_unrecorded : (∀ table, (TableImporter.ofTable table).KeepsFiles) ∧
    LeavesUnrecorded twinTable [⟨"/two"⟩, ⟨"/one"⟩] twinFiles twinTree ⟨"/two/a.py"⟩ ∧
    LeavesUnrecorded slashTable [⟨"/"⟩] [⟨"/a.py"⟩] pairTree ⟨"/a.py"⟩ :=
  ⟨TableImporter.keepsFiles, leavesUnrecorded_twin, leavesUnrecorded_slash⟩

end Scan

end QmlStubs
