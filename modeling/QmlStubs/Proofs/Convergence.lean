import QmlStubs.Proofs.FileIndex
import QmlStubs.Proofs.KeptSnapshot
import QmlStubs.Proofs.Saving

/-!
# Scans of an unchanged project

A scan that follows another one on the same files has nothing to do, unless the snapshot has a
tombstone or a file that no record is for. It keeps what survives, which are the entries that a
current file leads to; **what survives once survives again** (`Assessment.surviving_again`), so from
the second scan on the snapshot stays as it is.

The file index is where this could fail, since the last of several records for one file decides what
the file leads to. But that record is what the file reaches first, so it survives, and it stays the
last one.
-/

set_option autoImplicit false

namespace QmlStubs

open Modules

namespace Assessment

variable {snapshot : Snapshot} {stat : Path → Option Binary64} {files : List Path}

/-! ## Nothing to do -/

/-- Without tombstones everything in a current snapshot is clean. -/
theorem clean_of_isCurrent (hcur : snapshot.IsCurrent stat)
    (hrecords : ∀ name, snapshot.isTombstone name = false) {name : String}
    (h : snapshot.modules.contains name = true) :
    (finalStates snapshot.modules stat).find? name = some .clean := by
  rw [← contains_finalStates stat] at h
  obtain ⟨state, hstate⟩ := SortedMap.contains_iff.1 h
  by_cases hclean : state = .clean
  · rw [hstate, hclean]
  · obtain ⟨c, -, -, hc⟩ := leads_tombstone_of_dirty hcur hstate hclean
    have := hrecords c
    unfold Snapshot.isTombstone at this
    rw [hc] at this
    exact absurd this (by decide)

/-- What an assessment finds when everything is clean and every file is known. -/
structure NothingToDo (a : Assessment) : Prop where
  dirtyFiles : a.dirtyFiles = []
  dirtyBacking : a.dirtyBacking = .empty

/-- **In a current snapshot without tombstones nothing has to be done for known files.** -/
theorem nothingToDo_of_isCurrent (hcur : snapshot.IsCurrent stat)
    (hrecords : ∀ name, snapshot.isTombstone name = false)
    (hknown : ∀ f ∈ files, IsKnown snapshot.modules f) :
    NothingToDo (ofFiles snapshot stat files) := by
  constructor
  · have hdirty : (ofFiles snapshot stat files).dirtyFiles = files.filterMap fun f =>
        (reasonFor? (moduleOfFile snapshot.modules) (finalStates snapshot.modules stat) f).map
          fun r => ⟨f, r⟩ := rfl
    rw [hdirty, List.filterMap_eq_nil_iff]
    intro f hf
    obtain ⟨name, hname⟩ := exists_nameOfFile_iff.2 (hknown f hf)
    have hfind : (moduleOfFile snapshot.modules).find? f.components = some name := hname
    unfold reasonFor?
    rw [hfind]
    dsimp only
    rw [clean_of_isCurrent hcur hrecords (contains_of_nameOfFile hname)]
    rfl
  · have hbacking : (ofFiles snapshot stat files).dirtyBacking =
        .ofList (snapshot.modules.entries.filterMap fun e =>
          if isCleanAt (finalStates snapshot.modules stat) e.1 then none
          else e.2.map (·.path)) := rfl
    have hnil : (snapshot.modules.entries.filterMap fun e =>
        if isCleanAt (finalStates snapshot.modules stat) e.1 then none
        else e.2.map (·.path)) = [] := by
      rw [List.filterMap_eq_nil_iff]
      rintro ⟨name, e⟩ he
      have hclean := clean_of_isCurrent hcur hrecords
        (SortedMap.contains_of_find? (SortedMap.mem_entries.1 he))
      rw [if_pos (isCleanAt_iff.2 hclean)]
    rw [hbacking, hnil]
    rfl

/-! ## What survives again -/

/-- The last entry under a key stays the last one when others are taken out. -/
theorem lastValue?_filter {α β : Type} [DecidableEq α] {k : α} {v : β} {l : List (α × β)}
    {keep : β → Bool} (h : SortedMap.lastValue? k l = some v) (hv : keep v = true) :
    SortedMap.lastValue? k (l.filter fun e => keep e.2) = some v := by
  unfold SortedMap.lastValue? at h ⊢
  obtain ⟨⟨k', v'⟩, hlast, rfl⟩ := Option.map_eq_some_iff.1 h
  rw [List.filter_filter]
  obtain ⟨init, hinit⟩ := List.getLast?_eq_some_iff.1 hlast
  have hcomm : (l.filter fun e => decide (e.1 = k) && keep e.2) =
      (l.filter fun e => decide (e.1 = k)).filter fun e => keep e.2 := by
    rw [List.filter_filter]
    congr 1
    funext e
    exact Bool.and_comm ..
  have hone : ([(k', v')].filter fun e => keep e.2) = [(k', v')] := by
    rw [List.filter_eq_self]
    intro e he
    rw [List.mem_singleton.1 he, hv]
  rw [hcomm, hinit, List.filter_append, hone, List.getLast?_concat]
  rfl

/-- The index of a part of the modules is the part of the index. -/
theorem indexEntries_filter (modules : Modules) (keep : String → Bool) :
    indexEntries (modules.filter fun name _ => keep name) =
      (indexEntries modules).filter fun e => keep e.2 := by
  unfold indexEntries SortedMap.filter
  dsimp only
  induction modules.entries with
  | nil => rfl
  | cons e l ih =>
    obtain ⟨name, entry⟩ := e
    cases hk : keep name with
    | true =>
      rw [List.filter_cons_of_pos (by exact hk)]
      cases entry with
      | none => simpa using ih
      | some r => simpa [hk] using ih
    | false =>
      rw [List.filter_cons_of_neg (by simp [hk])]
      cases entry with
      | none => simpa using ih
      | some r => simpa [hk] using ih

/-- The entries that a clean snapshot keeps for some files. -/
abbrev keptOf (snapshot : Snapshot) (stat : Path → Option Binary64) (files : List Path) : Modules :=
  (ofFiles snapshot stat files).surviving

section Clean

variable (hclean : ∀ name, snapshot.modules.contains name = true →
  (finalStates snapshot.modules stat).find? name = some .clean)

include hclean

theorem find?_keptOf {name : String} {e : ModuleEntry} :
    (keptOf snapshot stat files).find? name = some e ↔
      snapshot.modules.find? name = some e ∧ IsReached snapshot.modules files name := by
  rw [find?_surviving]
  constructor
  · rintro ⟨he, -, hr⟩
    exact ⟨he, hr⟩
  · rintro ⟨he, hr⟩
    exact ⟨he, hclean name (SortedMap.contains_of_find? he), hr⟩

/-- A file leads to the same record as before. -/
theorem nameOfFile_keptOf {f : Path} (hf : f ∈ files) {name : String}
    (h : nameOfFile snapshot.modules f = some name) :
    nameOfFile (keptOf snapshot stat files) f = some name := by
  have hkept : keptOf snapshot stat files = snapshot.modules.filter fun name _ =>
      (keptOf snapshot stat files).contains name := by
    apply SortedMap.ext_find?
    intro k
    rw [SortedMap.find?_filter]
    cases hk : snapshot.modules.find? k with
    | none =>
      cases hk' : (keptOf snapshot stat files).find? k with
      | none => rfl
      | some e =>
        rw [((find?_keptOf hclean).1 hk').1] at hk
        exact absurd hk (by simp)
    | some e =>
      cases hk' : (keptOf snapshot stat files).find? k with
      | none => simp [Option.filter, SortedMap.contains, hk']
      | some e' =>
        rw [((find?_keptOf hclean).1 hk').1, Option.some.injEq] at hk
        simp [Option.filter, SortedMap.contains, hk', hk]
  obtain ⟨e, he⟩ := SortedMap.contains_iff.1 (contains_of_nameOfFile h)
  have hin : (keptOf snapshot stat files).contains name = true :=
    SortedMap.contains_of_find? ((find?_keptOf hclean).2 ⟨he, f, hf, name, h, .refl⟩)
  rw [nameOfFile_eq] at h ⊢
  rw [hkept, indexEntries_filter]
  exact lastValue?_filter h hin

/-- What is reached is reached among what survives. -/
theorem leads_keptOf {a b : String} (ha : IsReached snapshot.modules files a)
    (h : Leads snapshot.modules a b) : Leads (keptOf snapshot stat files) a b := by
  induction h with
  | refl => exact .refl
  | @tail b c hab hbc ih =>
    obtain ⟨r, hr, hc⟩ := hbc
    obtain ⟨f, hf, q, hq, hqa⟩ := ha
    exact ih.tail ⟨r, (find?_keptOf hclean).2 ⟨hr, f, hf, q, hq, hqa.trans hab⟩, hc⟩

/-- **What survives once survives again.** -/
theorem surviving_again {stat' : Path → Option Binary64}
    (hclean' : ∀ name, (keptOf snapshot stat files).contains name = true →
      (finalStates (keptOf snapshot stat files) stat').find? name = some .clean) :
    keptOf (.ofModules (keptOf snapshot stat files)) stat' files = keptOf snapshot stat files := by
  apply SortedMap.ext_find?
  intro name
  apply Option.ext
  intro e
  rw [find?_keptOf hclean']
  refine ⟨fun h => h.1, fun h => ⟨h, ?_⟩⟩
  obtain ⟨f, hf, q, hq, hl⟩ := ((find?_keptOf hclean).1 h).2
  exact ⟨f, hf, q, nameOfFile_keptOf hclean hf hq, leads_keptOf hclean ⟨f, hf, q, hq, .refl⟩ hl⟩

end Clean

end Assessment

/-- A state of an importer in which nothing is loaded yet, and which can be given up. -/
structure Importer.IsFresh {σ : Type} (imp : Importer σ) (s : σ) : Prop where
  loadedFiles : imp.loadedFiles s = .empty
  finish : (imp.finish (imp.takeRegistrations s).2).1 = .ok ()

namespace Scan

open Assessment

variable {σ : Type} {imp : Importer σ} {nameOf : Path → Except NamingError String}
  {settings : Settings} {files : List Path} {t : FileTree} {s : σ}

/-! ## Scans with nothing to do -/

/-- Without dirty files nothing is imported. -/
theorem importDirty_of_no_dirty (imp : Importer σ) (nameOf : Path → Except NamingError String)
    (hnone : (assess settings files t).dirtyFiles = []) :
    importDirty imp nameOf settings files t s = ⟨.ok (), [], Trace.empty.start, [], s⟩ := by
  unfold importDirty
  rw [hnone]
  rfl

/-- Without dirty files what survives is recorded, and nothing else. -/
theorem recordImports_of_no_dirty (imp : Importer σ) (nameOf : Path → Except NamingError String)
    (hnone : (assess settings files t).dirtyFiles = []) :
    recordImports imp nameOf settings files t s =
      ⟨(assess settings files t).surviving, .empty⟩ := by
  unfold recordImports
  rw [importDirty_of_no_dirty imp nameOf hnone]
  dsimp only
  rw [recordAll]

/-- **A scan without dirty files succeeds** and keeps what survives. -/
theorem result_of_no_dirty (imp : Importer σ) (nameOf : Path → Except NamingError String)
    (hnone : (assess settings files t).dirtyFiles = []) (hfresh : imp.IsFresh s) {u : FileTree}
    (hkeep : keep (.ofModules (assess settings files t).surviving) settings.outDir t =
      (.ok (), u)) :
    (ofFiles imp nameOf settings files t s).result =
        .ok (reportOf imp nameOf settings files t s) ∧
      (ofFiles imp nameOf settings files t s).tree = u ∧
      (reportOf imp nameOf settings files t s).snapshot =
        .ofModules (assess settings files t).surviving := by
  have himports := importDirty_of_no_dirty (s := s) imp nameOf hnone
  have hsnapshot : (reportOf imp nameOf settings files t s).snapshot =
      .ofModules (assess settings files t).surviving := by
    unfold reportOf
    rw [recordImports_of_no_dirty imp nameOf hnone]
  have hcompleted : Completed imp nameOf settings files t s
      (reportOf imp nameOf settings files t s) u :=
    ⟨by rw [himports], by rw [himports]; exact hfresh.finish, by rw [hsnapshot]; exact hkeep, rfl⟩
  obtain ⟨hresult, htree⟩ := result_of_completed hcompleted
  exact ⟨hresult, htree, hsnapshot⟩

/-- **A scan with nothing to do** asks the importer for nothing, makes no result stale, and keeps
what survives. -/
theorem result_of_nothingToDo (imp : Importer σ) (nameOf : Path → Except NamingError String)
    (hnothing : NothingToDo (assess settings files t))
    (hfresh : imp.IsFresh s) {u : FileTree}
    (hkeep : keep (.ofModules (assess settings files t).surviving) settings.outDir t =
      (.ok (), u)) :
    ∃ r, (ofFiles imp nameOf settings files t s).result = .ok r ∧
      (ofFiles imp nameOf settings files t s).tree = u ∧
      (importDirty imp nameOf settings files t s).requested = [] ∧
      r.assessment.dirtyFiles = [] ∧ r.staleFiles = .empty ∧
      r.snapshot = .ofModules (assess settings files t).surviving := by
  have himports := importDirty_of_no_dirty (s := s) imp nameOf hnothing.dirtyFiles
  have hexecuted : executedFiles imp t s = .empty := by
    unfold executedFiles
    rw [hfresh.loadedFiles]
    rfl
  obtain ⟨hresult, htree, hsnapshot⟩ :=
    result_of_no_dirty imp nameOf hnothing.dirtyFiles hfresh hkeep
  refine ⟨_, hresult, htree, by rw [himports], hnothing.dirtyFiles, ?_, hsnapshot⟩
  unfold ScanReport.staleFiles reportOf
  rw [hnothing.dirtyFiles, hnothing.dirtyBacking,
    recordImports_of_no_dirty imp nameOf hnothing.dirtyFiles, himports, hexecuted]
  rfl

/-! ## One scan after another -/

/-- The times of a current snapshot are finite. -/
theorem hasFiniteTimes_of_isCurrent {snapshot : Snapshot} (hclock : t.OnClock)
    (h : snapshot.IsCurrent t.modified?) : snapshot.modules.HasFiniteTimes := by
  intro name r hr
  obtain ⟨time, htime, hsame⟩ := ModuleRecord.isStale_eq_false.1 (h.fresh name r hr)
  exact Binary64.isFinite_of_sameValue hsame (FileTree.isFinite_modified? hclock htime)

/-- A snapshot without tombstones that fits the files, all of which it knows. -/
structure AtRest (snapshot : Snapshot) (files : List Path) (t : FileTree) : Prop where
  current : snapshot.IsCurrent t.modified?
  records : ∀ name, snapshot.isTombstone name = false
  known : ∀ f ∈ files, IsKnown snapshot.modules f

/-- What survives of a snapshot at rest is at rest, as long as the recorded files keep their
times. -/
theorem AtRest.surviving {snapshot : Snapshot} (h : AtRest snapshot files t) {u : FileTree}
    (hsame : ∀ name r, snapshot.modules.find? name = some (some r) →
      u.modified? r.path = t.modified? r.path) :
    AtRest (.ofModules (keptOf snapshot t.modified? files)) files u where
  current := by
    refine ⟨closed_surviving, fun name r hr => ?_⟩
    obtain ⟨r', hr', hfresh⟩ := fresh_surviving hr
    rw [Option.some.injEq] at hr'
    subst hr'
    rwa [hsame name r (find?_surviving.1 hr).1]
  records := by
    intro name
    unfold Snapshot.isTombstone
    rw [beq_eq_false_iff_ne]
    intro hnone
    obtain ⟨r, hr, -⟩ := fresh_surviving hnone
    exact absurd hr (by simp)
  known := by
    intro f hf
    obtain ⟨name, hname⟩ := exists_nameOfFile_iff.2 (h.known f hf)
    exact exists_nameOfFile_iff.1
      ⟨name, nameOfFile_keptOf (fun _ => clean_of_isCurrent h.current h.records) hf hname⟩

/-- **A scan that starts from a snapshot at rest** has nothing to do and stores what survives. -/
theorem result_of_atRest (imp : Importer σ) (nameOf : Path → Except NamingError String)
    {snapshot : Snapshot} {before : FileTree} {d : Place}
    (hforce : settings.forceRebuild = false) (hstorable : Storable before settings.outDir d)
    (hsaved : Saved snapshot before t d) (hfinite : snapshot.modules.HasFiniteTimes)
    (h : AtRest (.ofModules snapshot.modules) files t) (hfresh : imp.IsFresh s) :
    ∃ r, (ofFiles imp nameOf settings files t s).result = .ok r ∧
      (importDirty imp nameOf settings files t s).requested = [] ∧
      r.assessment.dirtyFiles = [] ∧ r.staleFiles = .empty ∧
      r.snapshot = .ofModules (keptOf (.ofModules snapshot.modules) t.modified? files) ∧
      r.snapshot.modules.HasFiniteTimes ∧
      Saved r.snapshot t (ofFiles imp nameOf settings files t s).tree d ∧
      Snapshot.load (ofFiles imp nameOf settings files t s).tree settings.outDir =
        (r.snapshot, none) := by
  have hprevious : previous settings t = (.ofModules snapshot.modules, []) := by
    unfold previous
    rw [if_neg (by simp [hforce]), load_of_saved hstorable hsaved hfinite]
  have hassess : assess settings files t =
      Assessment.ofFiles (.ofModules snapshot.modules) t.modified? files := by
    unfold assess
    rw [hprevious]
  have hnothing : NothingToDo (assess settings files t) := by
    rw [hassess]
    exact nothingToDo_of_isCurrent h.current h.records h.known
  obtain ⟨u, hkeep, hsaved'⟩ := keep_of_storable (hstorable.of_saved hsaved)
    (.ofModules (assess settings files t).surviving)
  obtain ⟨r, hresult, htree, hrequested, hdirty, hstale, hsnapshot⟩ :=
    result_of_nothingToDo imp nameOf hnothing hfresh hkeep
  rw [← htree, ← hsnapshot] at hsaved'
  rw [hassess] at hsnapshot
  have hfinite' : r.snapshot.modules.HasFiniteTimes := by
    intro name r' hr
    rw [hsnapshot] at hr
    exact hfinite name r' (find?_surviving.1 hr).1
  have hload := load_of_saved (hstorable.of_saved hsaved) hsaved' hfinite'
  have hversion : Snapshot.ofModules r.snapshot.modules = r.snapshot := by
    rw [hsnapshot]
    rfl
  rw [hversion] at hload
  exact ⟨r, hresult, hrequested, hdirty, hstale, hsnapshot, hfinite', hsaved', hload⟩

instance (outDir : Path) (t : FileTree) (p : Path) : Decidable (OffStore outDir t p) :=
  match h : t.place? p with
  | .ok q => decidable_of_iff
      (t.place? (Snapshot.pathIn outDir) ≠ .ok q ∧ t.place? (Snapshot.draftIn outDir) ≠ .ok q)
      ⟨fun hne q' hq => by rw [h, Except.ok.injEq] at hq; exact hq ▸ hne, fun hoff => hoff q h⟩
  | .error e => isTrue fun q hq => by rw [h] at hq; exact absurd hq (by simp)

/-- What a settled record of a current file is: not a tombstone, and off the store. -/
def isSettledEntry (outDir : Path) (t : FileTree) : ModuleEntry → Bool
  | some r => decide (OffStore outDir (madeFor outDir t) r.path)
  | none => false

/-- Whether a modules map has records off the store alone, and one for each of some files. -/
def isSettledFor (outDir : Path) (t : FileTree) (files : List Path) (modules : Modules) : Bool :=
  modules.entries.all (fun e => isSettledEntry outDir t e.2) &&
    files.all fun f => modules.entries.any fun e =>
      match e.2 with
      | some r => r.path.same f
      | none => false

theorem of_isSettledFor {outDir : Path} {files : List Path} {modules : Modules}
    (h : isSettledFor outDir t files modules = true) :
    (∀ name, (Snapshot.ofModules modules).isTombstone name = false) ∧
      (∀ f ∈ files, IsKnown modules f) ∧
      ∀ name r, modules.find? name = some (some r) → OffStore outDir (madeFor outDir t) r.path := by
  unfold isSettledFor at h
  rw [Bool.and_eq_true, List.all_eq_true, List.all_eq_true] at h
  obtain ⟨hentries, hfiles⟩ := h
  refine ⟨fun name => ?_, fun f hf => ?_, fun name r hr => ?_⟩
  · unfold Snapshot.isTombstone
    rw [beq_eq_false_iff_ne]
    intro hnone
    have := hentries _ (SortedMap.mem_entries.2 hnone)
    exact absurd this (by simp [isSettledEntry])
  · obtain ⟨⟨name, e⟩, he, hsame⟩ := List.any_eq_true.1 (hfiles f hf)
    cases e with
    | none => exact absurd hsame (by simp)
    | some r => exact ⟨name, r, SortedMap.mem_entries.1 he, hsame⟩
  · have := hentries _ (SortedMap.mem_entries.2 hr)
    exact of_decide_eq_true this

/-- Two files without an output directory. -/
def pairTree : FileTree where
  entries := .ofList [(["a.py"], .file .empty ⟨100, 5⟩ false),
    (["b.py"], .file .empty ⟨101, 0⟩ false)]
  current := []
  clock := ⟨200, 0⟩

/-- The two files, and a draft that is a link to the snapshot's own file. -/
def linkedPairTree : FileTree where
  entries := .ofList [(["a.py"], .file .empty ⟨100, 5⟩ false),
    (["b.py"], .file .empty ⟨101, 0⟩ false), (["out"], .directory ⟨100, 0⟩),
    (["out", "metadata.json.tmp"], .link ⟨"metadata.json"⟩)]
  current := []
  clock := ⟨200, 0⟩

/-- `a` imports `b`. -/
def pairTable : ModuleTable := .ofList
  [("a", ⟨some ⟨"/a.py"⟩, [⟨"b", [], false⟩], none, []⟩), ("b", ⟨some ⟨"/b.py"⟩, [], none, []⟩)]

/-- Both files. -/
def pairFiles : List Path := [⟨"/a.py"⟩, ⟨"/b.py"⟩]

/-- A scan of both files. -/
def pairScan (settings : Settings) (t : FileTree) : Outcome TableImporter.State :=
  ofFiles (TableImporter.ofTable pairTable) (ModuleName.ofFile [⟨"/"⟩]) settings pairFiles t .empty

/-- What a scan of both files records, in nine steps at most. -/
def pairModules? (settings : Settings) (t : FileTree) : Option Recorded :=
  let imports := importDirty (TableImporter.ofTable pairTable) (ModuleName.ofFile [⟨"/"⟩]) settings
    pairFiles t .empty
  recordWithin (recordOf? (TableImporter.ofTable pairTable) imports.state t) 9 imports.trace.edges
    imports.requested ⟨(assess settings pairFiles t).surviving, .empty⟩

theorem exists_pairScan {settings : Settings} {t : FileTree}
    (h : (pairScan settings t).result.toBool = true)
    (hmodules : (pairModules? settings t).any (fun out =>
      isSettledFor settings.outDir t pairFiles out.modules) = true) :
    ∃ r, (pairScan settings t).result = .ok r ∧
      isSettledFor settings.outDir t pairFiles r.snapshot.modules = true ∧
      r.snapshot = .ofModules r.snapshot.modules := by
  obtain ⟨r, hr⟩ := exists_ok_of_toBool h
  have hreport := (completed hr).report
  refine ⟨r, hr, ?_, by rw [hreport]; rfl⟩
  cases hout : pairModules? settings t with
  | none =>
    rw [hout] at hmodules
    exact absurd hmodules (by simp)
  | some out =>
    rw [hout] at hmodules
    have hrecorded := recordAll_of_recordWithin hout
    have hsame : r.snapshot.modules = out.modules := by
      rw [hreport, ← hrecorded]
      rfl
    rw [hsame]
    exact hmodules

/-- A second scan imports files again, though the first one left nothing open. -/
def ImportsAgain (settings : Settings) (t : FileTree) : Prop :=
  ∃ r₁ r₂, (pairScan settings t).result = .ok r₁ ∧
    (∀ name, r₁.snapshot.isTombstone name = false) ∧
    (∀ f ∈ pairFiles, IsKnown r₁.snapshot.modules f) ∧
    (pairScan settings (pairScan settings t).tree).result = .ok r₂ ∧
    r₂.assessment.dirtyFiles ≠ []

theorem importsAgain (h₁ : (pairScan settings t).result.toBool = true)
    (hmodules : (pairModules? settings t).any (fun out =>
      isSettledFor settings.outDir t pairFiles out.modules) = true)
    (h₂ : (pairScan settings (pairScan settings t).tree).result.toBool = true)
    (hdirty : (assess settings pairFiles (pairScan settings t).tree).dirtyFiles ≠ []) :
    ImportsAgain settings t := by
  obtain ⟨r₁, hr₁, hsettled, hversion⟩ := exists_pairScan h₁ hmodules
  obtain ⟨hrecords, hknown, -⟩ := of_isSettledFor hsettled
  obtain ⟨r₂, hr₂⟩ := exists_ok_of_toBool h₂
  refine ⟨r₁, r₂, hr₁, by rw [hversion]; exact hrecords, hknown, hr₂, ?_⟩
  rw [(completed hr₂).report]
  exact hdirty

theorem isTree_pairTree : pairTree.IsTree := .of_entries (by decide +kernel) (by decide +kernel)

theorem onClock_pairTree : pairTree.OnClock := .of_entries (by decide) (by decide +kernel)

end Scan

end QmlStubs
