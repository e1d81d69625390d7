import QmlStubs.Importer.Table
import QmlStubs.Proofs.RecordedNames
import QmlStubs.Proofs.Scanning

/-!
# The snapshot that a scan keeps

What a scan keeps is put together from two sides: the surviving part of whatever was stored before,
which may have been written by hand, and the records that were made of what the importer loaded.
Recording stops at names that are known already, so the two sides meet, and the closure of the
whole hangs on the surviving part being closed by itself.

`Snapshot.IsCurrent` is the invariant: every dependency is a known name, and every record has the
time of its file. Whoever starts from such a snapshot finds nothing changed but the tombstones,
which makes the outcome of the passes a matter of reaching one.
-/

set_option autoImplicit false

namespace QmlStubs

open Modules

/-- A snapshot that fits the files: no record is stale, and no dependency is unknown. -/
structure Snapshot.IsCurrent (stat : Path → Option Binary64) (snapshot : Snapshot) : Prop where
  closed : Closed snapshot.modules
  fresh : ∀ name r, snapshot.modules.find? name = some (some r) →
    r.isStale (stat r.path) = false

namespace Assessment

variable {snapshot : Snapshot} {stat : Path → Option Binary64}

/-! ## Assessing a current snapshot -/

/-- An entry of a current snapshot changed by itself only if it is a tombstone. -/
theorem ownState_of_isCurrent (hcur : snapshot.IsCurrent stat) {name : String} {e : ModuleEntry}
    (he : snapshot.modules.find? name = some e) :
    ownState stat e = .changed ↔ e = none := by
  rw [ownState_eq_changed]
  refine ⟨?_, .inl⟩
  rintro (hnone | ⟨r, rfl, hstale⟩)
  · exact hnone
  · rw [hcur.fresh name r he] at hstale
    exact absurd hstale (by simp)

/-- **In a current snapshot the changed names are the tombstones.** -/
theorem changed_iff_of_isCurrent (hcur : snapshot.IsCurrent stat) {name : String} :
    (finalStates snapshot.modules stat).find? name = some .changed ↔
      snapshot.modules.find? name = some none := by
  rw [finalStates_changed_iff]
  constructor
  · rintro ⟨e, he, hchanged⟩
    rw [he, (ownState_of_isCurrent hcur he).1 hchanged]
  · intro h
    exact ⟨none, h, (ownState_of_isCurrent hcur h).2 rfl⟩

/-- The causes in a current snapshot are tombstones that the dirty module leads to. -/
theorem leads_tombstone_of_dirty (hcur : snapshot.IsCurrent stat) {name : String} {s : Dirtiness}
    (h : (finalStates snapshot.modules stat).find? name = some s) (hs : s ≠ .clean) :
    ∃ c, s.causeFor name = some c ∧ Leads snapshot.modules name c ∧
      snapshot.modules.find? c = some none := by
  obtain ⟨c, hc, hl, hsrc⟩ := leads_source_of_dirty h hs
  have hname := SortedMap.contains_of_find? h
  rw [contains_finalStates] at hname
  obtain ⟨e, he⟩ := SortedMap.contains_iff.1 (hcur.closed.contains_of_leads hname hl)
  refine ⟨c, hc, hl, ?_⟩
  rw [he, (ownState_of_isCurrent hcur he).1 (hsrc e he)]

/-- **In a current snapshot the dirty names are those that lead to a tombstone.** -/
theorem dirty_iff_of_isCurrent (hcur : snapshot.IsCurrent stat) {name : String} {s : Dirtiness}
    (h : (finalStates snapshot.modules stat).find? name = some s) :
    s.isDirty = true ↔ ∃ b, Leads snapshot.modules name b ∧ snapshot.modules.find? b = some none := by
  have hdirty : s.isDirty = true ↔ s ≠ .clean := by cases s <;> simp [Dirtiness.isDirty]
  rw [hdirty]
  constructor
  · intro hs
    obtain ⟨c, -, hl, hc⟩ := leads_tombstone_of_dirty hcur h hs
    exact ⟨c, hl, hc⟩
  · rintro ⟨b, hl, hb⟩
    have hchanged := (changed_iff_of_isCurrent hcur).2 hb
    exact (dirty_iff_leads_source h).2 ⟨b, hl, isSource_iff.2 (.inl hchanged)⟩

end Assessment

namespace Scan

variable {σ : Type} {imp : Importer σ} {nameOf : Path → Except NamingError String}
  {settings : Settings} {files : List Path} {t : FileTree} {s : σ}

/-! ## What is recorded is current -/

/-- What is recorded on top of any snapshot is current. -/
theorem isCurrent_recordImports :
    (Snapshot.ofModules (recordImports imp nameOf settings files t s).modules).IsCurrent
      t.modified? := by
  constructor
  · exact closed_recordAll keepsDependencies_recordOf? _ _ Assessment.closed_surviving
  · intro name r hr
    rcases (find?_recordAll _ _ _ _).1 hr with hold | ⟨-, hnew⟩
    · obtain ⟨r', hr', hfresh⟩ := Assessment.fresh_surviving hold
      rw [Option.some.injEq] at hr'
      subst hr'
      exact hfresh
    · have htime := (recordOf?_eq_some hnew).1
      rw [ModuleRecord.isStale_eq_false]
      exact ⟨r.modified, htime, Binary64.sameValue_self (FileTree.isNaN_modified? htime)⟩

/-- The snapshot of a scan that succeeded is current. -/
theorem isCurrent_of_completed {r : ScanReport} {after : FileTree}
    (h : Completed imp nameOf settings files t s r after) : r.snapshot.IsCurrent t.modified? := by
  rw [h.report]
  exact isCurrent_recordImports

/-- **What a scan keeps fits the files**, whatever was stored before it: every dependency of a
record is known, and every record has the time of its file. An assessment of it, as long as the
recorded files keep their times, finds exactly the tombstones changed and exactly the modules that
lead to one dirty, and blames known names alone. -/
theorem kept_snapshot (imp : Importer σ) (nameOf : Path → Except NamingError String)
    (settings : Settings) (files : List Path) (t : FileTree) (s : σ) (r : ScanReport)
    (h : (ofFiles imp nameOf settings files t s).result = .ok r) :
    keep r.snapshot settings.outDir t = (.ok (), (ofFiles imp nameOf settings files t s).tree) ∧
    (∀ name record, r.snapshot.modules.find? name = some (some record) →
      (∀ d ∈ record.dependencies.toList, r.snapshot.modules.contains d = true) ∧
      ∃ time, t.modified? record.path = some time ∧ time.sameValue record.modified = true) ∧
    ∀ (stat : Path → Option Binary64) (files' : List Path),
      (∀ name record, r.snapshot.modules.find? name = some (some record) →
        stat record.path = t.modified? record.path) →
      let states := (Assessment.ofFiles r.snapshot stat files').states
      (∀ name, states.contains name = r.snapshot.modules.contains name) ∧
      (∀ name, states.find? name = some .changed ↔ r.snapshot.isTombstone name = true) ∧
      (∀ name state, states.find? name = some state →
        (state.isDirty = true ↔
          ∃ b, Leads r.snapshot.modules name b ∧ r.snapshot.isTombstone b = true)) ∧
      ∀ name cause, states.find? name = some (.via cause) →
        r.snapshot.modules.contains cause = true := by
  have hdone := completed h
  have hcur := isCurrent_of_completed hdone
  refine ⟨hdone.kept, fun name record hr => ⟨fun d hd => hcur.closed name d ⟨record, hr, hd⟩,
    ModuleRecord.isStale_eq_false.1 (hcur.fresh name record hr)⟩, ?_⟩
  intro stat files' hstat
  have hcur' : r.snapshot.IsCurrent stat := by
    refine ⟨hcur.closed, fun name record hr => ?_⟩
    rw [hstat name record hr]
    exact hcur.fresh name record hr
  have htomb : ∀ name, r.snapshot.isTombstone name = true ↔
      r.snapshot.modules.find? name = some none := fun name => beq_iff_eq
  rw [Assessment.states_ofFiles]
  refine ⟨fun name => Assessment.contains_finalStates _ name, fun name => ?_,
    fun name state hs => ?_, fun name cause hv => ?_⟩
  · rw [htomb]
    exact Assessment.changed_iff_of_isCurrent hcur'
  · rw [Assessment.dirty_iff_of_isCurrent hcur' hs]
    simp only [htomb]
  · obtain ⟨c, hc, -, hnone⟩ := Assessment.leads_tombstone_of_dirty hcur' hv (by simp)
    rw [Dirtiness.causeFor, Option.some.injEq] at hc
    subst hc
    exact SortedMap.contains_of_find? hnone

/-! ## A small project -/

/-- Two files, `a` and `b`, and a stored snapshot that knows `b` and a name without a file. -/
def sampleTree : FileTree where
  entries := .ofList [(["a.py"], .file .empty ⟨100, 5⟩ false),
    (["b.py"], .file .empty ⟨101, 0⟩ false), (["out"], .directory ⟨100, 0⟩),
    (["out", "metadata.json"], .file sampleStored.toUTF8 ⟨100, 0⟩ false)]
  current := []
  clock := ⟨200, 0⟩
where
  sampleStored : String :=
    "\x7b\"modules\": \x7b\"b\": \x7b\"modification_time\": 101.0, \"path\": \"/b.py\"\x7d, " ++
      "\"gone\": null\x7d, \"generating_version\": \"0.3.0\"\x7d"

/-- `a` imports `b` and a built-in module. -/
def sampleTable : ModuleTable := .ofList
  [("a", ⟨some ⟨"/a.py"⟩, [⟨"b", [], false⟩, ⟨"sys", [], false⟩], none, []⟩),
    ("b", ⟨some ⟨"/b.py"⟩, [], none, []⟩), ("sys", ⟨none, [], none, []⟩)]

/-- Everything goes to `/out`. -/
def sampleSettings : Settings := { Settings.default with outDir := ⟨"/out"⟩ }

/-- The scan of both files. -/
def sampleScan : Outcome TableImporter.State :=
  ofFiles (TableImporter.ofTable sampleTable) (ModuleName.ofFile [⟨"/"⟩]) sampleSettings
    [⟨"/a.py"⟩, ⟨"/b.py"⟩] sampleTree .empty

/-- The sample scan succeeds, and whoever assesses what it keeps finds the tombstones changed. -/
theorem kept_snapshot_of_sample : ∃ r, sampleScan.result = .ok r ∧
    (∀ name record, r.snapshot.modules.find? name = some (some record) →
      ∃ time, sampleTree.modified? record.path = some time ∧
        time.sameValue record.modified = true) ∧
    ∀ name, (Assessment.ofFiles r.snapshot sampleTree.modified? r.files).states.find? name =
      some .changed ↔ r.snapshot.isTombstone name = true := by
  have hok : sampleScan.result.toBool = true := by decide +kernel
  obtain ⟨r, hr⟩ := exists_ok_of_toBool hok
  obtain ⟨-, hrecords, hall⟩ := kept_snapshot _ _ _ _ _ _ r hr
  obtain ⟨-, htomb, -⟩ := hall sampleTree.modified? r.files fun _ _ _ => rfl
  exact ⟨r, hr, fun name record h => (hrecords name record h).2, htomb⟩

end Scan

end QmlStubs
