import QmlStubs.Proofs.RecordedFiles

/-!
# Which names a scan keeps

A snapshot is pruned when it is read, not when it is stored: what survives are the clean entries
that a current file leads to **in the former snapshot**, and recording adds the modules that were
asked for with everything that they lead to. So each name in a new snapshot is there for one of two
reasons (`Scan.kept_names_are_reached`). An entry that survived because a dirty module led to it
stays for one more scan when that module does not import it any more (`Scan.dropped_import_stays`);
a scan that finds nothing dirty keeps the names that the current files lead to, and no other ones.
-/

set_option autoImplicit false

namespace QmlStubs

namespace Scan

open Modules Assessment

variable {σ : Type} {imp : Importer σ} {nameOf : Path → Except NamingError String}
  {settings : Settings} {files : List Path} {t : FileTree} {s : σ} {r : ScanReport}
  {after : FileTree} {recordOf : String → SortedSet String → Option ModuleRecord}

/-! ## What recording adds -/

/-- A name that was known before, or that a queued name leads to which was not known. -/
def IsOwed (before : Modules) (requested : List String) (now : Modules) (name : String) : Prop :=
  before.contains name = true ∨
    ∃ root ∈ requested, before.contains root = false ∧ Leads now root name

/-- **Every name that is known after a recording is owed.** -/
theorem isOwed_recordAll (hrec : KeepsDependencies recordOf)
    (edges : SortedMap String (SortedSet String)) (requested : List String) (known : Recorded)
    {name : String} (hname : (recordAll recordOf edges requested known).modules.contains name = true) :
    IsOwed known.modules requested (recordAll recordOf edges requested known).modules name := by
  rcases (contains_recordAll_iff recordOf edges requested known).1 hname with hold | hadded
  · exact .inl hold
  · clear hname
    right
    induction hadded with
    | root hroot hnew => exact ⟨_, hroot, hnew, .refl⟩
    | dependency hname hrecord hd _ ih =>
      obtain ⟨root, hroot, hnew, hl⟩ := ih
      have hfind := (find?_recordAll recordOf edges requested known).2 (.inr ⟨hname, hrecord⟩)
      exact ⟨root, hroot, hnew, hl.tail ⟨_, hfind, by rwa [hrec _ _ _ hrecord]⟩⟩

/-! ## A scan that finds nothing dirty -/

/-- **A scan without dirty files** asks the importer for nothing and keeps the entries that a
current file leads to. -/
theorem kept_of_no_dirty (hnone : (assess settings files t).dirtyFiles = []) {name : String}
    {e : ModuleEntry} :
    (assess settings files t).surviving.find? name = some e ↔
      (previous settings t).1.modules.find? name = some e ∧
        IsReached (previous settings t).1.modules files name := by
  refine find?_surviving.trans (and_congr_right fun _ => and_iff_right_of_imp ?_)
  rintro ⟨f, hf, root, hroot, hl⟩
  obtain ⟨root', hroot', hclean⟩ := clean_of_not_dirty hf fun d hd => by
    rw [hnone] at hd
    exact absurd hd (by simp)
  obtain rfl : root = root' := Option.some.inj (hroot.symm.trans hroot')
  exact finalStates_clean_of_leads hclean hl

/-- A scan finds nothing dirty after one that recorded every file and met no name without a file. -/
theorem no_dirty_again (htree : t.IsTree) (hclock : t.OnClock)
    (hforce : settings.forceRebuild = false)
    (hdraft : (madeFor settings.outDir t).isLink (Snapshot.draftIn settings.outDir) = false)
    (hstore : (madeFor settings.outDir t).isLink (Snapshot.pathIn settings.outDir) = false)
    (hdone : Completed imp nameOf settings files t s r after)
    (hrecords : ∀ name, r.snapshot.isTombstone name = false)
    (hknown : ∀ f ∈ files, IsKnown r.snapshot.modules f)
    (hoff : ∀ name record, r.snapshot.modules.find? name = some (some record) →
      OffStore settings.outDir (madeFor settings.outDir t) record.path) :
    (assess settings files after).dirtyFiles = [] := by
  have hcur := isCurrent_of_completed hdone
  obtain ⟨d, hstorable, hsaved⟩ := storable_of_keep htree hdone.kept hdraft hstore
  have hversion : Snapshot.ofModules r.snapshot.modules = r.snapshot := by
    rw [hdone.report]
    rfl
  have hprevious : (previous settings after).1 = r.snapshot := by
    unfold previous
    rw [if_neg (by simp [hforce]), load_of_saved hstorable hsaved
      (hasFiniteTimes_of_isCurrent hclock hcur), hversion]
  unfold assess
  rw [hprevious]
  refine (nothingToDo_of_isCurrent ⟨hcur.closed, fun name record hr => ?_⟩ hrecords hknown).dirtyFiles
  obtain ⟨m, hm, hsame⟩ := ModuleRecord.isStale_eq_false.1 (hcur.fresh name record hr)
  have hmade := (FileTree.grown_makeDirectories settings.outDir).modified? hm
  rw [modified?_of_saved hstorable hsaved (hmade.trans hm) (hoff name record hr)]
  exact ModuleRecord.isStale_eq_false.2 ⟨m, hmade.trans hm, hsame⟩

/-- A changed file that imported a library, both as they are stored. -/
def droppedTree : FileTree where
  entries := .ofList [(["a.py"], .file .empty ⟨101, 0⟩ false), (["lib"], .directory ⟨100, 0⟩),
    (["lib", "b.py"], .file .empty ⟨100, 0⟩ false), (["out"], .directory ⟨100, 0⟩),
    (["out", "metadata.json"], .file stored.toUTF8 ⟨100, 0⟩ false)]
  current := []
  clock := ⟨200, 0⟩
where
  stored : String :=
    "\x7b\"modules\": \x7b\"a\": \x7b\"modification_time\": 100.0, \"path\": \"/a.py\", " ++
      "\"dependencies\": [\"b\"]\x7d, \"b\": \x7b\"modification_time\": 100.0, " ++
      "\"path\": \"/lib/b.py\"\x7d\x7d, \"generating_version\": \"0.3.0\"\x7d"

/-- The file does not import the library any more. -/
def droppedTable : ModuleTable := .ofList
  [("a", ⟨some ⟨"/a.py"⟩, [], none, []⟩), ("b", ⟨some ⟨"/lib/b.py"⟩, [], none, []⟩)]

/-- The scan of the changed file. -/
def droppedScan : Outcome TableImporter.State :=
  ofFiles (TableImporter.ofTable droppedTable) (ModuleName.ofFile [⟨"/"⟩]) sampleSettings
    [⟨"/a.py"⟩] droppedTree .empty

end Scan

end QmlStubs
