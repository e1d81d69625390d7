import QmlStubs.Proofs.Convergence
import QmlStubs.Proofs.Importing

/-!
# What a scan executes

The stale files of a scan come from four places: the dirty files, the files behind dirty modules,
the recorded ones and the executed ones. For a file that was scanned they all mean the same
(`Scan.staleFiles_has`):

> **a scanned file is stale exactly when it was executed.**

An importer has to remember what it loaded for that (`Importer.Remembers`), and two records of the
former snapshot must not share a file: only the last of them is found in the file index, and the
other one could be dirty alone.
-/

set_option autoImplicit false

namespace QmlStubs

namespace Importer

variable {σ : Type}

/-- An importer that lists all it loaded, in a tree that does not change while it works. -/
structure Remembers (imp : Importer σ) (t : FileTree) : Prop extends KeepsFiles imp where
  /-- What is loaded was executed. -/
  lists : ∀ s name p, imp.IsLoadedFrom s name p →
    (Scan.executedFiles imp t s).has (t.canonicalOr p) = true

end Importer

namespace Assessment

/-- Every file has one record at most. -/
def HasDistinctPaths (modules : Modules) : Prop :=
  ∀ a b r r', modules.find? a = some (some r) → modules.find? b = some (some r') →
    r.path.same r'.path = true → a = b

variable {snapshot : Snapshot} {stat : Path → Option Binary64} {files : List Path}

/-- With one record for each file, the index finds the module of every record. -/
theorem nameOfFile_of_record {modules : Modules} (h : HasDistinctPaths modules) {name : String}
    {r : ModuleRecord} (hr : modules.find? name = some (some r)) {f : Path}
    (hf : r.path.same f = true) : nameOfFile modules f = some name := by
  obtain ⟨other, hother⟩ := exists_nameOfFile_iff.2 ⟨name, r, hr, hf⟩
  obtain ⟨r', hr', hf'⟩ := isRecordedFor_of_nameOfFile hother
  have hsame : r'.path.same r.path = true := by
    unfold Path.same at hf hf' ⊢
    rw [eq_of_beq hf', eq_of_beq hf]
    exact beq_self_eq_true _
  rw [hother, h other name r' r hr' hr hsame]

/-- **A current file behind a dirty module is dirty itself.** -/
theorem dirty_of_dirtyBacking (hdistinct : HasDistinctPaths snapshot.modules) {f : Path}
    (hf : f ∈ files) (h : (ofFiles snapshot stat files).dirtyBacking.has f = true) :
    ∃ d ∈ (ofFiles snapshot stat files).dirtyFiles, d.path = f := by
  obtain ⟨name, ⟨r, hr, hsame⟩, hdirty⟩ := has_dirtyBacking.1 h
  apply (exists_dirtyFile_iff hf).2
  intro last hlast
  have hname := nameOfFile_of_record hdistinct hr hsame
  rw [nameOfFile_eq_some.2 hlast, Option.some.injEq] at hname
  rwa [hname]

end Assessment

namespace Scan

variable {σ : Type} {imp : Importer σ} {nameOf : Path → Except NamingError String}
  {settings : Settings} {files : List Path} {t : FileTree} {s : σ}

/-! ## The stale files -/

/-- **The recorded files were executed.** -/
theorem executed_of_recorded (hlaw : imp.Remembers t)
    (edges : SortedMap String (SortedSet String)) (queue : List String) (modules : Modules) :
    let files := (recordAll (recordOf? imp s t) edges queue ⟨modules, .empty⟩).files
    files.IsKeyed ∧ ∀ p, files.has p = true → (executedFiles imp t s).has p = true := by
  intro files
  have hlists := lists_recordAll (recordOf? imp s t) edges queue ⟨modules, .empty⟩
  constructor
  · intro cs p hp
    rcases hlists.only cs p hp with hstart | ⟨-, -, -, -, -, hcs⟩
    · exact PathSet.isKeyed_empty cs p hstart
    · exact hcs
  · intro p hp
    rcases (has_files_recordAll (recordOf? imp s t) edges queue ⟨modules, .empty⟩).1 hp with
      hstart | ⟨name, r, -, hr, hsame⟩
    · exact absurd hstart (by simp [PathSet.has, SortedMap.contains])
    · obtain ⟨q, hq, hpath⟩ := exists_isLoadedFrom_of_record hr
      have hin := hlaw.lists s name q hq
      unfold PathSet.has at hin ⊢
      rwa [← eq_of_beq hsame, hpath]

/-- **A scanned file is stale exactly when it was executed.** -/
theorem staleFiles_has (hlaw : imp.Remembers t)
    (hdistinct : Assessment.HasDistinctPaths (previous settings t).1.modules)
    (hcanonical : ∀ f ∈ files, (t.canonicalOr f).same f = true)
    {r : ScanReport} {after : FileTree} (h : Completed imp nameOf settings files t s r after)
    {f : Path} (hf : f ∈ files) : r.staleFiles.has f = r.importedFiles.has f := by
  have hdirty : ∀ d ∈ (assess settings files t).dirtyFiles, d.path.same f = true →
      (executedFiles imp t (importDirty imp nameOf settings files t s).state).has f = true := by
    intro d hd hsame
    obtain ⟨name, p, -, -, hp, horigin⟩ := exists_isLoadedFrom_of_ok hlaw.toKeepsFiles h.imported hd
    have hin := hlaw.lists _ name p hp
    have hfile : d.path ∈ files := by
      obtain ⟨f', hf', hmap⟩ := List.mem_filterMap.1 hd
      obtain ⟨reason, -, rfl⟩ := Option.map_eq_some_iff.1 hmap
      exact hf'
    have hcs : (t.canonicalOr p).components = f.components :=
      (eq_of_beq horigin).symm.trans ((eq_of_beq (hcanonical _ hfile)).trans (eq_of_beq hsame))
    unfold PathSet.has at hin ⊢
    rwa [hcs] at hin
  rw [h.report, Bool.eq_iff_iff]
  unfold ScanReport.staleFiles reportOf
  dsimp only
  rw [PathSet.has_ofList]
  obtain ⟨hkeyed, hrecorded⟩ := executed_of_recorded (t := t)
    (s := (importDirty imp nameOf settings files t s).state) hlaw
    (importDirty imp nameOf settings files t s).trace.edges
    (importDirty imp nameOf settings files t s).requested (assess settings files t).surviving
  have hexecuted : (executedFiles imp t (importDirty imp nameOf settings files t s).state).IsKeyed :=
    PathSet.isKeyed_ofList _
  constructor
  · rintro ⟨q, hq, hsame⟩
    simp only [List.mem_append, or_assoc] at hq
    rcases hq with hq | hq | hq | hq
    · obtain ⟨d, hd, rfl⟩ := List.mem_map.1 hq
      exact hdirty d hd hsame
    · obtain ⟨d, hd, rfl⟩ := Assessment.dirty_of_dirtyBacking hdistinct hf
        ((PathSet.isKeyed_ofList _).has_iff.2 ⟨q, hq, hsame⟩)
      exact hdirty d hd (beq_self_eq_true _)
    · exact hrecorded f (hkeyed.has_iff.2 ⟨q, hq, hsame⟩)
    · exact hexecuted.has_iff.2 ⟨q, hq, hsame⟩
  · intro hin
    obtain ⟨q, hq, hsame⟩ := hexecuted.has_iff.1 hin
    exact ⟨q, List.mem_append_right _ hq, hsame⟩

end Scan

/-! ## A table remembers -/

namespace TableImporter

/-- **A table whose files are written in one way each is an importer that remembers.** -/
theorem remembers {table : ModuleTable}
    (h : ∀ a b p q, fileOf? table a = some p → fileOf? table b = some q → p.same q = true → p = q)
    (t : FileTree) : (ofTable table).Remembers t where
  toKeepsFiles := keepsFiles table
  lists s name p hp := by
    obtain ⟨hname, hfile⟩ := isLoadedFrom_iff.1 hp
    have hlisted : p ∈ s.loaded.toList.filterMap (fileOf? table) :=
      List.mem_filterMap.2 ⟨name, SortedSet.mem_toList.2 hname, hfile⟩
    obtain ⟨q, hq, hsame⟩ := (PathSet.isKeyed_ofList _).has_iff.1
      (PathSet.has_ofList.2 ⟨p, hlisted, beq_self_eq_true p.components⟩)
    -- The file may be in the set in another way of writing it, but here there is none.
    have hqp : q = p := by
      obtain ⟨cs, hcs⟩ := SortedMap.mem_values.1 hq
      obtain ⟨q', hq', he⟩ := List.mem_map.1 (SortedMap.mem_of_find?_ofList hcs)
      obtain ⟨-, rfl⟩ := Prod.mk.inj he
      obtain ⟨b, -, hb⟩ := List.mem_filterMap.1 hq'
      exact h b name q' p hb hfile hsame
    unfold Scan.executedFiles
    rw [PathSet.has_ofList]
    exact ⟨t.canonicalOr p, List.mem_map.2 ⟨q, hq, by rw [hqp]⟩, beq_self_eq_true _⟩

end TableImporter

end QmlStubs
