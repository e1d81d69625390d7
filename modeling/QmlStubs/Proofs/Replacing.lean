import Mathlib.Data.List.Perm.Basic
import QmlStubs.Proofs.Executing
import QmlStubs.Proofs.RefreshedTree
import QmlStubs.Proofs.ScannedTree
import QmlStubs.Proofs.Steadiness

/-!
# File by file

A scan tells which files were executed, and the refresh after it replaces the entries of just these
(`Stubs.entries_replaced`):

> **for a scanned file that was executed the entries are the fresh registrations, for any other
> scanned file they are the former entries, and no entry is left of a file that was not scanned.**

Both halves of the choice hang on `Scan.staleFiles_has`, that a scanned file is stale exactly when it
was executed. What the law is about has to stand still meanwhile: the input file of an entry must not
change its meaning while the output directory is written (`TypesEntry.IsSteady`). And two types files
must not be one, which is what happens below a directory whose name ends in a dot
(`Stubs.entries_are_lost`).
-/

set_option autoImplicit false

namespace QmlStubs

open FileTree

/-- The input file of an entry does not depend on what is below a place. -/
def TypesEntry.IsSteady (d : Place) (t : FileTree) (base : Path) (e : TypesEntry) : Prop :=
  ∀ v, Within d t v → e.resolvedInput v base = e.resolvedInput t base

/-- The input file of an entry is steady when it lies outside. -/
theorem TypesEntry.isSteady_of_ground {t : FileTree} {p base : Path} {d q : Place} (h : Ground t p d)
    {entry : Entry} (he : t.at? q = some entry) (hplain : IsPlain entry)
    (hout : IsOutside d q) {e : TypesEntry} (hpath : base.join e.inputFile = pathOf q) :
    e.IsSteady d t base := fun v hv => by
  unfold resolvedInput
  rw [hpath, h.canonicalOr_pathOf he hplain hout hv,
    h.canonicalOr_pathOf he hplain hout (.refl d t)]

/-- What is steady is steady after a change below the place. -/
theorem TypesEntry.IsSteady.of_within {t u : FileTree} {base : Path} {d : Place} {e : TypesEntry}
    (h : e.IsSteady d t base) (hu : Within d t u) : e.IsSteady d u base := fun v hv => by
  rw [h v (hu.trans hv), h u hu]

/-- The entries of a list that come from a file. -/
def TypesEntry.withInput (t : FileTree) (base f : Path) (es : List TypesEntry) : List TypesEntry :=
  es.filter fun e => (e.resolvedInput t base).same f

namespace PathSet

/-- Equal paths are in the same sets. -/
theorem has_of_same {s : PathSet} {p q : Path} (h : p.same q = true) : s.has p = s.has q := by
  unfold has
  rw [eq_of_beq h]

end PathSet

namespace Stubs

open TypesEntry

variable {s : Stubs} {files stale : PathSet} {t v : FileTree} {base f : Path}

/-- A file that was given is clean unless it is stale. -/
theorem cleanFiles_has (hf : files.has f = true) :
    (cleanFiles files stale).has f = !stale.has f := by
  obtain ⟨p, hp⟩ := SortedMap.contains_iff.1 hf
  cases hstale : stale.has f with
  | true =>
    refine SortedMap.contains_eq_false.2 ?_
    have hmem : stale.contains f.components = true := hstale
    rw [cleanFiles, SortedMap.find?_filter, hp]
    simp [hmem]
  | false =>
    refine SortedMap.contains_iff.2 ⟨p, ?_⟩
    have hmem : stale.contains f.components = false := hstale
    rw [cleanFiles, SortedMap.find?_filter, hp]
    simp [hmem]

/-- A refresh asks of the stale files only which of the given files are clean. -/
theorem refresh_congr {stale' : PathSet} (h : cleanFiles files stale = cleanFiles files stale')
    (registrations : List Registration) :
    s.refresh registrations files stale = s.refresh registrations files stale' := by
  unfold cleanFiles at h
  unfold refresh settleAll
  rw [h]

/-- **What a merge leaves of one file**: the former entries if it is clean, and the fresh ones. -/
theorem withInput_merge {clean : PathSet} (former fresh : List TypesEntry) :
    (withInput v base f (merge v base clean former fresh)).Perm
      ((if clean.has f then withInput v base f former else []) ++ withInput v base f fresh) := by
  unfold merge withInput
  have hsort := (List.mergeSort_perm
    (former.filter (fun e => clean.has (e.resolvedInput v base)) ++ fresh)
    fun a b => (compare a.sortKey b.sortKey).isLE).filter
      fun e => (e.resolvedInput v base).same f
  refine hsort.trans (.of_eq ?_)
  rw [List.filter_append, List.filter_filter]
  congr 1
  split
  next hclean =>
    refine List.filter_congr fun e _ => ?_
    cases hsame : (e.resolvedInput v base).same f with
    | false => rfl
    | true =>
      rw [PathSet.has_of_same hsame, hclean]
      rfl
  next hclean =>
    rw [List.filter_eq_nil_iff]
    intro e _ he
    obtain ⟨hsame, hhas⟩ := Bool.and_eq_true_iff.1 he
    rw [PathSet.has_of_same hsame] at hhas
    exact hclean hhas

/-- Steady entries come from the same files in all trees that differ below the place alone. -/
theorem withInput_of_steady {d : Place} {es : List TypesEntry}
    (h : ∀ e ∈ es, e.IsSteady d t base) (hv : Within d t v) :
    withInput v base f es = withInput t base f es :=
  List.filter_congr fun e he => by rw [h e he v hv]

/-- The scanned files that a scan leaves clean are those that were not executed. -/
theorem cleanFiles_staleFiles {σ : Type} {imp : Importer σ}
    {nameOf : Path → Except NamingError String} {settings : Settings} {files : List Path}
    {t after : FileTree} {start : σ} {r : ScanReport} (hremembers : imp.Remembers t)
    (hdistinct : Assessment.HasDistinctPaths (Scan.previous settings t).1.modules)
    (hcanonical : ∀ f ∈ files, (t.canonicalOr f).same f = true)
    (hdone : Scan.Completed imp nameOf settings files t start r after) :
    cleanFiles (.ofList files) r.staleFiles = cleanFiles (.ofList files) r.importedFiles := by
  refine SortedMap.ext_find? fun cs => ?_
  unfold cleanFiles
  rw [SortedMap.find?_filter, SortedMap.find?_filter]
  cases hp : (PathSet.ofList files).find? cs with
  | none => rfl
  | some p =>
    obtain ⟨f, hf, he⟩ := List.mem_map.1 (SortedMap.mem_of_find?_ofList hp)
    obtain ⟨rfl, rfl⟩ := Prod.mk.inj he
    have hsame := Scan.staleFiles_has hremembers hdistinct hcanonical hdone hf
    unfold PathSet.has at hsame
    simp only [hsame]

/-- The entries of the types files are replaced file by file: those of an executed file by its
registrations, and no others. -/
def ReplacesEntries (s : Stubs) (files : List Path) (executed : PathSet)
    (registrations : List Registration) (t u : FileTree) : Prop :=
  ∀ k : QmlModule, k.IsWellNamed →
    (∀ f ∈ files, (withInput u (s.base t) f (s.entriesOf u k)).Perm
      (if executed.has f then withInput t (s.base t) f (s.freshOf (s.base t) registrations k)
        else withInput t (s.base t) f (s.entriesOf t k))) ∧
    ∀ e ∈ s.entriesOf u k, ∃ f ∈ files, (e.resolvedInput u (s.base t)).same f = true

/-- A scan changes no types file. -/
theorem not_isStore {d : Place} {k : QmlModule} : ¬ Scan.IsStore d (d ++ k.typesNames) := by
  unfold Scan.IsStore QmlModule.typesNames
  rintro (h | h) <;>
  · have hlen := congrArg List.length (List.append_cancel_left h)
    rw [List.length_append, List.length_singleton, List.length_singleton] at hlen
    exact k.parts_ne_nil (List.length_eq_zero_iff.1 (by omega))

/-- What is fresh for a module was registered for it. -/
theorem exists_of_mem_freshOf {k : QmlModule} {e : TypesEntry} {registrations : List Registration}
    (he : e ∈ s.freshOf base registrations k) :
    ∃ r ∈ registrations, r.module = k ∧ s.relativeEntry base r.entry = .ok e := by
  obtain ⟨r, hr, hopt⟩ := List.mem_filterMap.1 he
  obtain ⟨hr, hk⟩ := List.mem_filter.1 hr
  refine ⟨r, hr, by simpa using hk, ?_⟩
  cases hrel : s.relativeEntry base r.entry with
  | error cause =>
    rw [hrel] at hopt
    exact absurd hopt (by simp [Except.toOption])
  | ok e' =>
    rw [hrel] at hopt
    exact congrArg Except.ok (Option.some.inj hopt)

/-! ## A small output directory -/

/-- Everything goes to `/o`. -/
def plainSettings : Settings := { Settings.default with outDir := ⟨"/o"⟩ }

/-- The module `a` registers a class from `/a.py`, and `b` registers none. -/
def plainTable : ModuleTable := .ofList
  [("a", ⟨some ⟨"/a.py"⟩, [], none, [⟨⟨"u", 1, 0⟩, plainEntry "/a.py"⟩]⟩),
    ("b", ⟨some ⟨"/b.py"⟩, [], none, []⟩)]

/-- A scan that names files by the root directory. -/
def plainScan (files : List Path) (t : FileTree) : Scan.Outcome TableImporter.State :=
  Scan.ofFiles (TableImporter.ofTable plainTable) (ModuleName.ofFile [⟨"/"⟩]) plainSettings files t
    .empty

/-- The refresh after a scan starts from the tree that the scan left. -/
def plainBench (files : List Path) (t : FileTree) : Workbench := ⟨(plainScan files t).tree, [], []⟩

theorem tree_plainBench (files : List Path) (t : FileTree) :
    (plainBench files t).tree = (plainScan files t).tree := rfl

/-- The refresh after a scan that executed `a` alone. -/
def plainRefresh (files : List Path) (t : FileTree) : Except RefreshError RefreshReport × Workbench :=
  (plainBench files t).run
    (plainStubs.refresh [⟨⟨"u", 1, 0⟩, plainEntry "/a.py"⟩] (.ofList files) (.ofList [⟨"/a.py"⟩]))

theorem remembers_plainTable (t : FileTree) :
    (TableImporter.ofTable plainTable).Remembers t := by
  refine TableImporter.remembers (fun a b p q hp hq hsame => ?_) t
  have hfiles : ∀ name p, TableImporter.fileOf? plainTable name = some p →
      p = ⟨"/a.py"⟩ ∨ p = ⟨"/b.py"⟩ := by
    intro name p h
    obtain ⟨m, hm, hfile⟩ := Option.bind_eq_some_iff.1 h
    rcases List.mem_cons.1 (SortedMap.mem_of_find?_ofList hm) with hm | hm
    · rw [(Prod.mk.inj hm).2] at hfile
      exact .inl (Option.some.inj hfile).symm
    · rw [(Prod.mk.inj (List.mem_singleton.1 hm)).2] at hfile
      exact .inr (Option.some.inj hfile).symm
  rcases hfiles a p hp with rfl | rfl <;> rcases hfiles b q hq with rfl | rfl
  all_goals first | rfl | exact absurd hsame (by decide)

/-- A scan of `/a.py` and perhaps `/b.py`, of which the first one alone is executed. -/
structure ExecutesA (files : List Path) (t : FileTree) (r : ScanReport) : Prop where
  result : (plainScan files t).result = .ok r
  distinct : Assessment.HasDistinctPaths (Scan.previous plainSettings t).1.modules
  canonical : ∀ f ∈ files, (t.canonicalOr f).same f = true
  registrations : r.registrations = [⟨⟨"u", 1, 0⟩, plainEntry "/a.py"⟩]
  executed : r.importedFiles = .ofList [⟨"/a.py"⟩]
  loaded : (TableImporter.ofTable plainTable).IsLoadedFrom
    (Scan.importDirty (TableImporter.ofTable plainTable) (ModuleName.ofFile [⟨"/"⟩]) plainSettings
      files t .empty).state "a" ⟨"/a.py"⟩

/-- The refresh after such a scan. -/
theorem ExecutesA.refresh {files : List Path} {t : FileTree} {r : ScanReport}
    (h : ExecutesA files t r) :
    (plainBench files t).run
      (plainStubs.refresh r.registrations (.ofList files) r.staleFiles) = plainRefresh files t := by
  rw [h.registrations, refresh_congr (cleanFiles_staleFiles (remembers_plainTable t) h.distinct
    h.canonical (Scan.completed h.result)), h.executed]
  rfl

/-- A changed file, and a file with a record and an entry with this input file. -/
def storedTree (inputFile : String) : FileTree where
  entries := .ofList [(["a.py"], .file .empty ⟨101, 0⟩ false), (["b.py"], .file .empty ⟨100, 0⟩ false),
    (["r"], .file .empty ⟨100, 0⟩ true), (["o"], .directory ⟨100, 0⟩),
    (["o", "metadata.json"], .file stored.toUTF8 ⟨100, 0⟩ false),
    (["o", "v"], .directory ⟨100, 0⟩),
    (["o", "v", "types1-0.json"], .file former.toUTF8 ⟨100, 0⟩ false)]
  current := []
  clock := ⟨200, 0⟩
where
  stored : String :=
    "\x7b\"modules\":\x7b\"b\":\x7b\"modification_time\":100.0,\"path\":\"/b.py\"\x7d\x7d," ++
      "\"generating_version\":\"0.3.0\"\x7d"
  former : String :=
    "[\x7b\"classes\":[],\"QML_IMPORT_MAJOR_VERSION\":1,\"QML_IMPORT_MINOR_VERSION\":0," ++
      "\"inputFile\":\"" ++ inputFile ++ "\"\x7d]"

/-- Both files. -/
def bothFiles : List Path := [⟨"/a.py"⟩, ⟨"/b.py"⟩]

/-- One record shares no file with another one. -/
theorem hasDistinctPaths_singleton {name : String} {r : ModuleRecord} :
    Assessment.HasDistinctPaths (.ofList [(name, some r)]) := by
  intro a b ra rb ha hb _
  have hname : ∀ {n e}, (SortedMap.ofList [(name, some r)]).find? n = some (some e) → n = name :=
    fun h => (Prod.mk.inj (List.mem_singleton.1 (SortedMap.mem_of_find?_ofList h))).1
  rw [hname ha, hname hb]

/-- The importer after the imports of such a scan. -/
abbrev plainState (files : List Path) (t : FileTree) : TableImporter.State :=
  (Scan.importDirty (TableImporter.ofTable plainTable) (ModuleName.ofFile [⟨"/"⟩]) plainSettings
    files t .empty).state

theorem exists_executesA {files : List Path} {t : FileTree}
    (hok : (plainScan files t).result.toBool = true)
    (hdistinct : Assessment.HasDistinctPaths (Scan.previous plainSettings t).1.modules)
    (hcanonical : ∀ f ∈ files, (t.canonicalOr f).same f = true)
    (hstate : (plainState files t).registrations = [⟨⟨"u", 1, 0⟩, plainEntry "/a.py"⟩] ∧
      (plainState files t).loaded.contains "a" = true ∧
      Scan.executedFiles (TableImporter.ofTable plainTable) t (plainState files t) =
        .ofList [⟨"/a.py"⟩]) : ∃ r, ExecutesA files t r := by
  obtain ⟨r, hr⟩ := exists_ok_of_toBool hok
  have hreport : r = Scan.reportOf (TableImporter.ofTable plainTable) (ModuleName.ofFile [⟨"/"⟩])
    plainSettings files t .empty := (Scan.completed hr).report
  have hregistrations : r.registrations = (plainState files t).registrations := by
    rw [hreport, Scan.reportOf]
    rfl
  have hexecuted : r.importedFiles =
      Scan.executedFiles (TableImporter.ofTable plainTable) t (plainState files t) := by
    rw [hreport, Scan.reportOf]
  exact ⟨r, hr, hdistinct, hcanonical, hregistrations.trans hstate.1, hexecuted.trans hstate.2.2,
    TableImporter.isLoadedFrom_iff.2 ⟨hstate.2.1, by decide +kernel⟩⟩

/-- What is registered comes from the file that was executed. -/
theorem ExecutesA.mem_freshOf {files : List Path} {t : FileTree} {r : ScanReport}
    (h : ExecutesA files t r) {base : Path} {k : QmlModule} {e : TypesEntry}
    (he : e ∈ plainStubs.freshOf base r.registrations k) : e = plainEntry "/a.py" := by
  obtain ⟨reg, hreg, -, hrel⟩ := exists_of_mem_freshOf he
  rw [h.registrations, List.mem_singleton] at hreg
  rw [hreg] at hrel
  exact (Except.ok.inj hrel).symm

/-- A name other than that of the output directory is not below it. -/
theorem isOutside_name {name : String} (h : name ≠ "o") : IsOutside ["o"] [name] := by
  rintro ns - he
  exact h (List.cons.inj he).1

/-- The input files of the registrations are the executed file. -/
theorem ExecutesA.same_of_mem_freshOf {files : List Path} {t v : FileTree} {r : ScanReport}
    (h : ExecutesA files t r) (hsite : Site t plainStubs.outDir ["o"])
    (ha : (t.at? ["a.py"]).any (fun e => decide (IsPlain e)) = true) (hv : Within ["o"] t v)
    {base : Path} {k : QmlModule} :
    ∀ e ∈ plainStubs.freshOf base r.registrations k,
      (e.resolvedInput v base).same (t.canonicalOr ⟨"/a.py"⟩) = true := by
  intro e he
  obtain rfl := h.mem_freshOf he
  obtain ⟨entry, hentry, hplain⟩ := (Option.any_eq_true _ _).1 ha
  have hcanonical : ∀ v, Within ["o"] t v → v.canonicalOr ⟨"/a.py"⟩ = ⟨"/a.py"⟩ := fun v hv =>
    hsite.ground.canonicalOr_pathOf (v := v) hentry (of_decide_eq_true hplain)
      (isOutside_name (by decide)) hv
  have hinput : base.join (plainEntry "/a.py").inputFile = ⟨"/a.py"⟩ := if_pos (by decide)
  rw [TypesEntry.resolvedInput, hinput, hcanonical v hv, hcanonical t (.refl _ _)]
  exact beq_self_eq_true _

/-- What the law on the entries is about: a scan, and a refresh that succeeds after it in a directory
without links. -/
structure RefreshesA (files : List Path) (t : FileTree) (r : ScanReport) (w' : Workbench) : Prop
    extends ExecutesA files t r where
  remembers : (TableImporter.ofTable plainTable).Remembers t
  site : Site (plainBench files t).tree plainStubs.outDir ["o"]
  named : ∀ reg ∈ r.registrations, reg.module.IsWellNamed
  inputs : ∀ k, ∀ e ∈ plainStubs.freshOf (plainStubs.base (plainBench files t).tree) r.registrations k,
    (e.resolvedInput (plainBench files t).tree (plainStubs.base (plainBench files t).tree)).same
      (t.canonicalOr ⟨"/a.py"⟩) = true
  run : ∃ report, (plainBench files t).run
    (plainStubs.refresh r.registrations (.ofList files) r.staleFiles) = (.ok report, w')

/-- A scan in a site changes the site by its own files. -/
theorem ExecutesA.change {files : List Path} {t : FileTree} {r : ScanReport}
    (h : ExecutesA files t r) (hsite : Site t plainStubs.outDir ["o"]) :
    Change plainStubs.outDir ["o"] (Scan.IsStore ["o"]) t (plainBench files t).tree := by
  rw [tree_plainBench]
  exact (Scan.kept_of_keep hsite.ground (Scan.completed h.result).kept).change

/-- The refresh after a scan in a site is one that the law is about when it succeeds. -/
theorem ExecutesA.refreshes {files : List Path} {t : FileTree} {r : ScanReport}
    (h : ExecutesA files t r) (hsite : Site t plainStubs.outDir ["o"])
    (ha : (t.at? ["a.py"]).any (fun e => decide (IsPlain e)) = true)
    (hok : (plainRefresh files t).1.toBool = true) :
    RefreshesA files t r (plainRefresh files t).2 where
  toExecutesA := h
  remembers := remembers_plainTable t
  site := (h.change hsite).ground.site (by decide)
  named := by
    rw [h.registrations]
    intro reg hreg
    rw [List.mem_singleton.1 hreg]
    exact isWellNamed_u
  inputs k := h.same_of_mem_freshOf hsite ha (h.change hsite).within
  run := by
    obtain ⟨report, hreport⟩ := exists_pair_of_toBool hok
    exact ⟨report, h.refresh.trans hreport⟩

/-- The record of the unchanged file. -/
def storedRecord : ModuleRecord := ⟨.ofSeconds 100 0, ⟨"/b.py"⟩, .empty⟩

/-- A tree with one record: that of the unchanged file. -/
theorem distinct_stored (inputFile : String)
    (h : (Scan.previous plainSettings (storedTree inputFile)).1.modules =
      .ofList [("b", some storedRecord)]) : Assessment.HasDistinctPaths
      (Scan.previous plainSettings (storedTree inputFile)).1.modules := by
  rw [h]
  exact hasDistinctPaths_singleton

theorem completed_stored : (plainScan bothFiles (storedTree "/b.py")).result.toBool = true ∧
    (plainRefresh bothFiles (storedTree "/b.py")).1.toBool = true := by decide +kernel

/-- A directory that a removed module `u` and a module `u.` share. -/
def dottedTree : FileTree where
  entries := .ofList [(["a.py"], .file .empty ⟨100, 0⟩ false), (["r"], .file .empty ⟨100, 0⟩ true),
    (["o"], .directory ⟨100, 0⟩), (["o", "u."], .directory ⟨100, 0⟩),
    (["o", "u.", "types1-0.json"], .file "[]".toUTF8 ⟨100, 0⟩ false)]
  current := []
  clock := ⟨200, 0⟩

/-- The number of entries that a refresh leaves of a file in a module, and how many there should be. -/
def entryCounts (files : List Path) (t : FileTree) (k : QmlModule) (f : Path) : Nat × Nat :=
  let w := plainBench files t
  let u := (plainRefresh files t).2.tree
  let base := plainStubs.base w.tree
  ((withInput u base f (plainStubs.entriesOf u k)).length,
    (if (PathSet.ofList [⟨"/a.py"⟩]).has f then
      withInput w.tree base f (plainStubs.freshOf base [⟨⟨"u", 1, 0⟩, plainEntry "/a.py"⟩] k)
    else withInput w.tree base f (plainStubs.entriesOf w.tree k)).length)

/-- Where the numbers differ the entries are not replaced. -/
theorem ExecutesA.not_replacesEntries {files : List Path} {t : FileTree} {r : ScanReport}
    (h : ExecutesA files t r) {k : QmlModule} (hk : k.IsWellNamed) {f : Path} (hf : f ∈ files)
    {a b : Nat} (hcounts : entryCounts files t k f = (a, b)) (hne : a ≠ b) :
    ¬ plainStubs.ReplacesEntries files r.importedFiles r.registrations (plainBench files t).tree
      (plainRefresh files t).2.tree := by
  intro hreplaces
  have hlength := ((hreplaces k hk).1 f hf).length_eq
  rw [h.executed, h.registrations] at hlength
  obtain ⟨ha, hb⟩ := Prod.mk.inj hcounts
  exact hne (ha.symm.trans (hlength.trans hb))

theorem completed_dotted : (plainScan [⟨"/a.py"⟩] dottedTree).result.toBool = true ∧
    (plainRefresh [⟨"/a.py"⟩] dottedTree).1.toBool = true ∧
    entryCounts [⟨"/a.py"⟩] dottedTree ⟨"u", 1, 0⟩ ⟨"/a.py"⟩ = (0, 1) := by decide +kernel

theorem completed_dangling :
    (plainScan bothFiles (storedTree "/o/u/../../b.py")).result.toBool = true ∧
    (plainRefresh bothFiles (storedTree "/o/u/../../b.py")).1.toBool = true ∧
    entryCounts bothFiles (storedTree "/o/u/../../b.py") ⟨"v", 1, 0⟩ ⟨"/b.py"⟩ = (1, 0) := by
  decide +kernel

end Stubs

end QmlStubs
