import QmlStubs.Proofs.OutputTree
import QmlStubs.Proofs.Replacing
import QmlStubs.Proofs.ScannedTree

/-!
# What is left when the snapshot is lost

Without a snapshot every file is new. A scan then imports all of them, all of them are stale, and the
refresh after it keeps no former entry: a merge without clean files is the sorted fresh entries
(`Stubs.merge_of_empty`), whatever was in the output directory. So **stubs that are made after the
snapshot was lost are those that would be made in an empty directory** (`Stubs.rebuilt_from_empty`).

Two trees are compared, the one with leftovers and the one without them. The scans of both ask the
importer for the same modules in the same order, and `IsSwept` says of a single tree that nothing is
left beside the files of modules with entries, as far as they can be read; two such trees with the
same entries read the same (`IsSwept.read_eq`, `IsSwept.readText?_eq`).

The two refreshes can still part where a path depends on the directories that are there. The
directory that input files are relative to must not, and an input file that is found only through a
leftover directory ends one of the refreshes, as does a registrar that is run in one of them alone
(`Stubs.leftovers_show`).
-/

set_option autoImplicit false

namespace QmlStubs

open FileTree

namespace Scan

variable {σ : Type} {imp : Importer σ} {nameOf : Path → Except NamingError String}
  {settings : Settings} {files : List Path} {t u after : FileTree} {start : σ} {r : ScanReport}

/-- There is no snapshot to start from: it is missing, or it cannot be read, or it is of another
version. -/
def IsDiscarded (settings : Settings) (t : FileTree) : Prop :=
  t.isPresent (Snapshot.pathIn settings.outDir) = false ∨
    ∃ e, Snapshot.read t (Snapshot.pathIn settings.outDir) = .error e

theorem previous_of_isDiscarded (h : IsDiscarded settings t) :
    (previous settings t).1 = .empty := by
  have hload : (Snapshot.load t settings.outDir).1 = .empty := by
    unfold Snapshot.load
    rcases h with hnone | ⟨e, he⟩
    · rw [hnone]
      rfl
    · rw [he]
      split <;> rfl
  unfold previous
  split
  next => rfl
  next =>
    split
    next s hs => rwa [hs] at hload
    next s e hs => rwa [hs] at hload

/-- **Without a snapshot every file is new.** -/
theorem dirtyFiles_of_isDiscarded (h : IsDiscarded settings t) :
    (assess settings files t).dirtyFiles = files.map fun f => ⟨f, .new⟩ := by
  unfold assess
  rw [previous_of_isDiscarded h]
  have hreason : ∀ states f,
      Assessment.reasonFor? (Assessment.moduleOfFile Snapshot.empty.modules) states f = some .new :=
    fun _ _ => rfl
  unfold Assessment.ofFiles
  simp only [hreason, Option.map_some, List.filterMap_eq_map']

/-- What was imported does not depend on the tree, when all imports succeeded. -/
theorem state_importFiles_eq {ds : List DirtyFile} {trace : Trace} {s : σ}
    (h : (importFiles imp nameOf t ds trace s).outcome = .ok ())
    (h' : (importFiles imp nameOf u ds trace s).outcome = .ok ()) :
    (importFiles imp nameOf t ds trace s).state = (importFiles imp nameOf u ds trace s).state := by
  induction ds generalizing trace s with
  | nil => rfl
  | cons d ds ih =>
    rw [importFiles] at h h'
    rw [importFiles, importFiles]
    split at h
    next => exact absurd h (by simp)
    next module hname =>
      rw [hname] at h'
      dsimp only at h h' ⊢
      split at h
      next => exact absurd h (by simp)
      next loaded hloaded =>
        rw [hloaded] at h'
        dsimp only at h' ⊢
        split at h
        next horigin =>
          split at h'
          next horigin' =>
            rw [if_pos horigin, if_pos horigin']
            exact ih h h'
          next => exact absurd h' (by simp)
        next => exact absurd h (by simp)

/-- **Scans without a snapshot collect the same registrations.** -/
theorem registrations_eq_of_isDiscarded {after' : FileTree} {r' : ScanReport}
    (ht : IsDiscarded settings t) (hu : IsDiscarded settings u)
    (h : Completed imp nameOf settings files t start r after)
    (h' : Completed imp nameOf settings files u start r' after') :
    r.registrations = r'.registrations := by
  have himported := h.imported
  have himported' := h'.imported
  have hstate : (importDirty imp nameOf settings files t start).state =
      (importDirty imp nameOf settings files u start).state := by
    unfold importDirty at himported himported' ⊢
    rw [dirtyFiles_of_isDiscarded ht] at himported ⊢
    rw [dirtyFiles_of_isDiscarded hu] at himported' ⊢
    exact state_importFiles_eq himported himported'
  rw [h.report, h'.report]
  unfold reportOf
  dsimp only
  rw [hstate]

/-- **Without a snapshot no file is clean.** -/
theorem cleanFiles_of_isDiscarded (ht : IsDiscarded settings t)
    (h : Completed imp nameOf settings files t start r after) :
    Stubs.cleanFiles (.ofList files) r.staleFiles = .empty := by
  refine SortedMap.ext_find? fun cs => ?_
  unfold Stubs.cleanFiles
  rw [SortedMap.find?_filter, SortedMap.find?_empty]
  cases hp : (PathSet.ofList files).find? cs with
  | none => rfl
  | some p =>
    obtain ⟨f, hf, he⟩ := List.mem_map.1 (SortedMap.mem_of_find?_ofList hp)
    obtain ⟨rfl, rfl⟩ := Prod.mk.inj he
    have hdirty : f ∈ r.assessment.dirtyFiles.map (·.path) := by
      rw [h.report]
      unfold reportOf
      dsimp only
      rw [dirtyFiles_of_isDiscarded ht, List.map_map]
      exact List.mem_map.2 ⟨f, hf, rfl⟩
    have hstale : r.staleFiles.contains f.components = true :=
      PathSet.has_ofList.2 ⟨f, by simp [hdirty], beq_self_eq_true _⟩
    simp [hstale]

/-- A directory that is there does not have to be made. -/
theorem madeFor_of_reaches {outDir : Path} {d : Place} (htext : textError? outDir = none)
    (h : Reaches t outDir d) : madeFor outDir t = t := by
  unfold madeFor
  rw [makeDirectories_of_isDirectory (isDirectory_iff.2 ⟨htext, d, h⟩)]

/-- A snapshot is kept in the directory that was made for it. -/
theorem keep_madeFor {s : Snapshot} {outDir : Path} (h : keep s outDir t = (.ok (), u)) :
    keep s outDir (madeFor outDir t) = (.ok (), u) := by
  obtain ⟨steps⟩ := nonempty_steps h
  obtain ⟨hfits, -⟩ := of_run_write_join isName_draftName steps.openDraft
  have hmade : madeFor outDir t = steps.made := by
    unfold madeFor
    rw [steps.make]
  have hagain := makeDirectories_again isName_draftName hfits.text steps.make
  rw [hmade]
  refine Steps.keep_eq ⟨steps.made, steps.again, steps.opened, steps.written, ?_, ?_,
    steps.openDraft, steps.writeDraft, steps.move⟩
  · exact hagain
  · exact steps.makeAgain

/-- What keeping a snapshot comes to when its directory was made for it. -/
theorem kept_of_keep_madeFor {s : Snapshot} {outDir : Path} {d : Place}
    (hground : Ground (madeFor outDir t) outDir d) (h : keep s outDir t = (.ok (), u)) :
    Kept s outDir d (madeFor outDir t) u :=
  kept_of_keep hground (keep_madeFor h)

end Scan

/-! ## Reading below a directory -/

/-- **A file behind the path of a directory without links is read where its names say**, if the path
can be used at all. -/
theorem FileTree.Ground.toOption_read? {t : FileTree} {p : Path} {d : Place} (h : Ground t p d)
    {ns : List String} (hne : ns ≠ []) (hns : ∀ n ∈ ns, IsName n) :
    (t.read? (QmlStubs.joins p ns)).toOption =
      if textError? (QmlStubs.joins p ns) = none then t.contentAt? (d ++ ns) else none := by
  have hplace : ∀ q, t.place? (QmlStubs.joins p ns) = .ok q ↔ _ := fun q => h.place?_joins hne hns
  unfold read? contentAt?
  cases hp : t.place? (QmlStubs.joins p ns) with
  | ok q =>
    obtain ⟨htext, rfl, -⟩ := (hplace q).1 hp
    rw [if_pos htext]
    dsimp only [bind, Except.bind]
    cases t.at? (d ++ ns) with
    | none => rfl
    | some e => cases e <;> rfl
  | error e =>
    split
    next htext =>
      cases hat : t.at? (d ++ ns) with
      | none => rfl
      | some x =>
        have hfound := (hplace (d ++ ns)).2 ⟨htext, rfl, by rw [hat]; rfl⟩
        rw [hp] at hfound
        exact absurd hfound (by simp)
    next => rfl

theorem toOption_readText? (t : FileTree) (p : Path) :
    (t.readText? p).toOption = (t.read? p).toOption.bind String.fromUTF8? := by
  unfold readText?
  cases t.read? p with
  | error e => rfl
  | ok b =>
    dsimp only [bind, Except.bind]
    show _ = String.fromUTF8? b
    cases String.fromUTF8? b <;> rfl

theorem TypesFile.toOption_read (t : FileTree) (p : Path) :
    (TypesFile.read t p).toOption = (t.read? p).toOption.bind TypesFile.ofBytes? := by
  unfold TypesFile.read
  cases t.read? p with
  | error e => rfl
  | ok b =>
    dsimp only
    show _ = TypesFile.ofBytes? b
    cases TypesFile.ofBytes? b <;> rfl

namespace Stubs

open Workbench

variable {s : Stubs} {w w' : Workbench} {t u v : FileTree} {base : Path} {d : Place} {k : QmlModule}
variable {files stale : PathSet} {registrations : List Registration}

/-- **Without clean files a merge is the sorted fresh entries.** -/
theorem merge_of_empty (t u : FileTree) (base base' : Path) (former former' fresh : List TypesEntry) :
    merge t base .empty former fresh = merge u base' .empty former' fresh := by
  have hnone : ∀ (t : FileTree) (base : Path) (former : List TypesEntry),
      former.filter (fun e => PathSet.has .empty (e.resolvedInput t base)) = [] := fun t base former =>
    List.filter_eq_nil_iff.2 fun e _ => by simp [PathSet.has, SortedMap.contains]
  unfold merge
  rw [hnone, hnone]

/-- The path of the `qmldir` file of a module. -/
def qmldirPath (s : Stubs) (k : QmlModule) : Path := (k.directoryIn s.outDir).join "qmldir"

theorem qmldirPath_eq (s : Stubs) (k : QmlModule) :
    s.qmldirPath k = joins s.outDir (k.parts ++ ["qmldir"]) := by
  unfold qmldirPath
  rw [joins_concat]
  rfl

theorem isName_qmldirNames (hk : k.IsWellNamed) : ∀ n ∈ k.parts ++ ["qmldir"], IsName n := by
  intro n hn
  rcases List.mem_append.1 hn with hn | hn
  · exact hk.isName n hn
  · exact List.mem_singleton.1 hn ▸ QmlModule.isName_qmldir

/-- **Nothing is left beside the files of modules with entries**, as far as it can be read: a types
file without entries is gone, and so is a `qmldir` file in a directory without modules. -/
structure IsSwept (s : Stubs) (d : Place) (u : FileTree) : Prop where
  ground : Ground u s.outDir d
  types : ∀ k : QmlModule, k.IsWellNamed → s.entriesOf u k = [] →
    (u.read? (s.typesPath k)).toOption = none
  written : HasQmldirs s d u
  removed : ∀ k : QmlModule, k.IsWellNamed →
    (∀ k' : QmlModule, k'.IsWellNamed → k'.parts = k.parts → s.entriesOf u k' = []) →
    (u.read? (s.qmldirPath k)).toOption = none

/-- The types file of a module without entries is gone after a refresh. -/
theorem Leaves.at?_typesNames_eq_none {ms : List Settled} (h : Leaves s d ms t u)
    (hsettled : SettledTypes s d registrations files stale t v ms) (ht : Ground t s.outDir d)
    (hk : k.IsWellNamed) (htext : textError? (s.typesPath k) = none) (hnil : s.entriesOf u k = []) :
    u.at? (d ++ k.typesNames) = none := by
  by_cases hmem : ∃ m ∈ ms, m.module = k
  · obtain ⟨m, hm, rfl⟩ := hmem
    rw [h.entries m hm] at hnil
    exact (h.gone m hm hnil _ (List.mem_cons_self ..)).2
  · -- A module that was not settled had no types file, and none was made.
    have hnone : t.at? (d ++ k.typesNames) = none := by
      cases hat : t.at? (d ++ k.typesNames) with
      | none => rfl
      | some e => exact absurd (hsettled.listed k (isListed_of_isSome ht (by rw [hat]; rfl) htext)) hmem
    rw [h.change.at?_eq ?_ (touchedBy_typesNames d k).not_isMade, hnone]
    rintro (⟨m, hm, hq⟩ | hq)
    · exact hmem ⟨m, hm, hq.unique (touchedBy_typesNames d k)⟩
    · exact (touchedBy_typesNames d k).not_isQmldir hq

/-- The `qmldir` file of a directory without modules is gone after a refresh. -/
theorem Leaves.at?_qmldir_eq_none {ms : List Settled} (h : Leaves s d ms t u)
    (hsettled : SettledTypes s d registrations files stale t v ms)
    (hk : k.IsWellNamed) (htext : textError? (s.qmldirPath k) = none)
    (hnil : ∀ k' : QmlModule, k'.IsWellNamed → k'.parts = k.parts → s.entriesOf u k' = []) :
    u.at? (qmldirAt d k.parts) = none := by
  obtain ⟨x, hc, hreplaced⟩ := h.replaced
  have hnone : ∀ q ∈ qmldirsOf ms, q.directory ≠ joins s.outDir k.parts := by
    intro q hq he
    obtain ⟨m, hm, -, hbelow⟩ := hsettled.isQmldirBelow hq
    obtain ⟨hm', hne⟩ := (h.exists_mem_keptOf hsettled).1 ⟨m, hm, rfl⟩
    exact hne (hnil _ hm' (Glob.joins_injective hk.isName hbelow.1
      (he.symm.trans hbelow.2)).symm)
  rw [qmldirPath_eq] at htext
  by_cases hfound : Glob.IsFound x s.outDir d qmldirPart k.parts "qmldir"
  · exact hreplaced.removed _ hk.isName hnone hfound
  · rw [hreplaced.kept _ hk.isName hnone hfound]
    cases hat : x.at? (qmldirAt d k.parts) with
    | none => rfl
    | some e =>
      exact absurd (isFound_of_textError? hc.ground QmlModule.isName_qmldir
        (show (x.at? (qmldirAt d k.parts)).isSome = true by rw [hat]; rfl) (by decide) htext) hfound

/-- **A refresh that succeeds sweeps the output directory**, whatever was left in it. -/
theorem isSwept_of_run_refresh (h : Ground w.tree s.outDir d) (htext : textError? s.outDir = none)
    (hlaw : s.registrar.OnlyWritesOutputs) (hdots : HasPlainDots w.tree d)
    (hregs : ∀ r ∈ registrations, r.module.IsWellNamed) {report : RefreshReport}
    (hrun : w.run (s.refresh registrations files stale) = (.ok report, w')) :
    IsSwept s d w'.tree := by
  obtain ⟨metatypes, ms, v, x, -, -, -, hsettled, hleaves, -⟩ :=
    leaves_of_run_refresh h htext hlaw hdots hregs hrun
  have hground := hleaves.change.ground
  refine ⟨hground, fun k hk hnil => ?_, hleaves.hasQmldirs hsettled, fun k hk hnil => ?_⟩
  · rw [typesPath_eq, hground.toOption_read? k.typesNames_ne_nil hk.isName_typesNames]
    split
    next htext =>
      rw [← typesPath_eq] at htext
      unfold contentAt?
      rw [hleaves.at?_typesNames_eq_none hsettled h hk htext hnil]
    next => rfl
  · rw [qmldirPath_eq, hground.toOption_read? (by simp) (isName_qmldirNames hk)]
    split
    next htext =>
      rw [← qmldirPath_eq] at htext
      have hnone := hleaves.at?_qmldir_eq_none hsettled hk htext hnil
      unfold contentAt?
      unfold qmldirAt at hnone
      rw [hnone]
    next => rfl

/-- Two rows of lines that are sorted by their bytes are equal if they have the same lines. -/
theorem eq_of_pairwise_isBefore {l l' : List String} (h : l.Pairwise Text.IsBefore)
    (h' : l'.Pairwise Text.IsBefore) (hmem : ∀ a, a ∈ l ↔ a ∈ l') : l = l' := by
  have hirrefl : ∀ a, ¬ Text.IsBefore a a := fun a => List.lt_irrefl _
  have hnodup : ∀ {l : List String}, l.Pairwise Text.IsBefore → l.Nodup := fun h => by
    refine List.Pairwise.imp ?_ h
    rintro a _ hab rfl
    exact hirrefl a hab
  have hperm := (List.perm_ext_iff_of_nodup (hnodup h) (hnodup h')).2 hmem
  exact hperm.eq_of_pairwise (fun a b _ _ hab hba => absurd (List.lt_trans hab hba) (hirrefl a)) h h'

section Swept

variable {u u' : FileTree}

theorem entriesOf_eq_of_read_eq
    (h : (TypesFile.read u (s.typesPath k)).toOption = (TypesFile.read u' (s.typesPath k)).toOption) :
    s.entriesOf u k = s.entriesOf u' k := by
  have hread : ∀ u, s.entriesOf u k = (TypesFile.read u (s.typesPath k)).toOption.getD [] := fun u => by
    unfold entriesOf
    cases TypesFile.read u (s.typesPath k) <;> rfl
  rw [hread, hread, h]

/-- **The types files of swept trees with the same entries read the same.** -/
theorem IsSwept.read_eq (h : IsSwept s d u) (h' : IsSwept s d u') (hk : k.IsWellNamed)
    (hentries : s.entriesOf u k = s.entriesOf u' k) :
    (TypesFile.read u (s.typesPath k)).toOption = (TypesFile.read u' (s.typesPath k)).toOption := by
  by_cases hnil : s.entriesOf u k = []
  · rw [TypesFile.toOption_read, TypesFile.toOption_read, h.types k hk hnil,
      h'.types k hk (hentries ▸ hnil)]
  · have hread : ∀ {u : FileTree}, s.entriesOf u k ≠ [] →
        (TypesFile.read u (s.typesPath k)).toOption = some (s.entriesOf u k) := fun {u} hne => by
      unfold entriesOf at hne ⊢
      cases hr : TypesFile.read u (s.typesPath k) with
      | ok es => rfl
      | error e =>
        rw [hr] at hne
        exact absurd rfl hne
    rw [hread hnil, hread (hentries ▸ hnil), hentries]

/-- **The `qmldir` files of swept trees with the same entries read the same.** -/
theorem IsSwept.readText?_eq (h : IsSwept s d u) (h' : IsSwept s d u') (hk : k.IsWellNamed)
    (hentries : ∀ k : QmlModule, k.IsWellNamed → s.entriesOf u k = s.entriesOf u' k) :
    (u.readText? (s.qmldirPath k)).toOption = (u'.readText? (s.qmldirPath k)).toOption := by
  have hread : (u.read? (s.qmldirPath k)).toOption = (u'.read? (s.qmldirPath k)).toOption := by
    by_cases hsome : ∃ k' : QmlModule, k'.IsWellNamed ∧ k'.parts = k.parts ∧ s.entriesOf u k' ≠ []
    · obtain ⟨k', hk', hparts, hne⟩ := hsome
      obtain ⟨lines, hsorted, hlines, hcontent⟩ := h.written k' hk' hne
      obtain ⟨lines', hsorted', hlines', hcontent'⟩ := h'.written k' hk' (hentries k' hk' ▸ hne)
      have hline : ∀ l, s.IsQmldirLine u k'.uri l ↔ s.IsQmldirLine u' k'.uri l := fun l =>
        exists_congr fun k => and_congr_right fun hk => by rw [hentries k hk]
      obtain rfl := eq_of_pairwise_isBefore hsorted hsorted' fun l =>
        (hlines l).trans ((hline l).trans (hlines' l).symm)
      rw [hparts] at hcontent hcontent'
      unfold qmldirAt at hcontent hcontent'
      rw [qmldirPath_eq, h.ground.toOption_read? (by simp) (isName_qmldirNames hk),
        h'.ground.toOption_read? (by simp) (isName_qmldirNames hk), hcontent, hcontent']
    · have hnil : ∀ k' : QmlModule, k'.IsWellNamed → k'.parts = k.parts → s.entriesOf u k' = [] :=
        fun k' hk' hparts => by
          by_contra hne
          exact hsome ⟨k', hk', hparts, hne⟩
      rw [h.removed k hk hnil, h'.removed k hk fun k' hk' hparts =>
        (hentries k' hk').symm.trans (hnil k' hk' hparts)]
  rw [toOption_readText?, toOption_readText?, hread]

end Swept

/-! ## The rebuilt stubs -/

/-- A scan and the refresh after it succeed. -/
structure Renews {σ : Type} (imp : Importer σ) (nameOf : Path → Except NamingError String)
    (settings : Settings) (files : List Path) (start : σ) (s : Stubs) (t : FileTree) (r : ScanReport)
    (u : FileTree) : Prop where
  scan : (Scan.ofFiles imp nameOf settings files t start).result = .ok r
  refresh : ∃ report w', (⟨(Scan.ofFiles imp nameOf settings files t start).tree, [], []⟩ :
    Workbench).run (s.refresh r.registrations (.ofList files) r.staleFiles) = (.ok report, w') ∧
      w'.tree = u

section Renews

variable {σ : Type} {imp : Importer σ} {nameOf : Path → Except NamingError String}
  {settings : Settings} {start : σ} {r : ScanReport} {fs : List Path}

/-- Changes of the snapshot's file leave the dots in the names of directories. -/
theorem hasPlainDots_of_kept {snapshot : Snapshot} (hdots : HasPlainDots t d)
    (h : Scan.Kept snapshot s.outDir d t u) : HasPlainDots u d := by
  intro ns f hsome hversion
  have hne : ∀ {n}, QmlModule.versionOfFileName? n = none → d ++ (ns ++ [f]) ≠ d ++ [n] := by
    intro n hn he
    have hname := (List.append_inj' (List.append_cancel_left he : ns ++ [f] = [] ++ [n]) rfl).2
    rw [List.singleton_inj.1 hname, hn] at hversion
    exact absurd hversion (by simp)
  rw [h.saved.same _ (hne (by decide)) (hne (by decide))] at hsome
  exact hdots ns f hsome hversion

/-- **What a renewal without a snapshot leaves**: the sorted registrations, and nothing else. -/
theorem Renews.entries (h : Renews imp nameOf settings fs start s t r u)
    (hout : s.outDir = settings.outDir) (hlaw : s.registrar.OnlyWritesOutputs)
    (hground : Ground (Scan.madeFor s.outDir t) s.outDir d)
    (hdots : HasPlainDots (Scan.madeFor s.outDir t) d) (hdiscarded : Scan.IsDiscarded settings t)
    (hnames : ∀ reg ∈ r.registrations, reg.module.IsWellNamed) :
    IsSwept s d u ∧
      Within d (Scan.madeFor s.outDir t) (Scan.ofFiles imp nameOf settings fs t start).tree ∧
      ∀ base, base = s.base (Scan.ofFiles imp nameOf settings fs t start).tree →
        ∀ k, k.IsWellNamed →
          s.entriesOf u k = merge t base .empty [] (s.freshOf base r.registrations k) := by
  obtain ⟨report, w', hrun, rfl⟩ := h.refresh
  have hdone := Scan.completed h.scan
  have hkept := Scan.kept_of_keep_madeFor hground (hout ▸ hdone.kept)
  have htext : textError? s.outDir = none := by
    rw [hout]
    exact Scan.textError?_of_keep (hout ▸ hground.direct.ne_empty) hdone.kept
  have hplain := hasPlainDots_of_kept hdots hkept
  refine ⟨isSwept_of_run_refresh hkept.change.ground htext hlaw hplain hnames hrun,
    hkept.change.within, ?_⟩
  rintro _ rfl k hk
  obtain ⟨-, -, hall⟩ := entriesOf_refresh hkept.change.ground htext hlaw hplain hnames hrun
  obtain ⟨v, -, hentries, -⟩ := hall k hk
  rw [hentries, Scan.cleanFiles_of_isDiscarded hdiscarded hdone]
  exact merge_of_empty ..

/-- **Lost snapshots heal.** When there is no snapshot to start from, a scan and the refresh after it
leave the types files and the `qmldir` files that they leave when they start from an empty output
directory, whatever else was in it.

`t` is the tree with leftovers and `t₀` the one without them. -/
theorem rebuilt_from_empty (imp : Importer σ) (nameOf : Path → Except NamingError String)
    (settings : Settings) (files : List Path) (start : σ) (s : Stubs) (d : Place)
    (t t₀ u u₀ : FileTree) (r r₀ : ScanReport) (hout : s.outDir = settings.outDir)
    (hlaw : s.registrar.OnlyWritesOutputs)
    (hsite : Site (Scan.madeFor s.outDir t) s.outDir d)
    (hdots : HasPlainDots (Scan.madeFor s.outDir t) d)
    (hdiscarded : Scan.IsDiscarded settings t)
    (hsite₀ : Site t₀ s.outDir d) (hsame : Within d (Scan.madeFor s.outDir t) t₀)
    (hempty : ∀ ns, ns ≠ [] → t₀.at? (d ++ ns) = none)
    (hbase : ∀ v, Within d (Scan.madeFor s.outDir t) v →
      s.base v = s.base (Scan.madeFor s.outDir t))
    (h : Renews imp nameOf settings files start s t r u)
    (h₀ : Renews imp nameOf settings files start s t₀ r₀ u₀)
    (hnames : ∀ reg ∈ r.registrations, reg.module.IsWellNamed) (k : QmlModule)
    (hk : k.IsWellNamed) :
    (TypesFile.read u (s.typesPath k)).toOption = (TypesFile.read u₀ (s.typesPath k)).toOption ∧
      (u.readText? (s.qmldirPath k)).toOption = (u₀.readText? (s.qmldirPath k)).toOption := by
  -- The empty directory is there, and holds no snapshot.
  have hmade : Scan.madeFor s.outDir t₀ = t₀ := by
    have htext := Scan.textError?_of_keep (hout ▸ hsite₀.ground.direct.ne_empty)
      (Scan.completed h₀.scan).kept
    exact Scan.madeFor_of_reaches (hout ▸ htext) hsite₀.reaches
  have hdiscarded₀ : Scan.IsDiscarded settings t₀ := by
    refine .inl ?_
    rw [← hout, ← Bool.not_eq_true, Snapshot.pathIn]
    intro hpresent
    have hplace : ∃ q, t₀.place? (joins s.outDir ["metadata.json"]) = .ok q := by
      unfold isPresent at hpresent
      exact exists_ok_of_toBool hpresent
    obtain ⟨q, hq⟩ := hplace
    obtain ⟨-, -, hsome⟩ := (hsite₀.ground.place?_joins (by simp) (by decide)).1 hq
    rw [hempty _ (by simp)] at hsome
    exact absurd hsome (by simp)
  have hdots₀ : HasPlainDots t₀ d := fun ns f hsome => by
    rw [hempty _ (by simp)] at hsome
    exact absurd hsome (by simp)
  have hregistrations : r.registrations = r₀.registrations :=
    Scan.registrations_eq_of_isDiscarded hdiscarded hdiscarded₀ (Scan.completed h.scan)
      (Scan.completed h₀.scan)
  obtain ⟨hswept, hv, hentries⟩ := h.entries hout hlaw hsite.ground hdots hdiscarded hnames
  obtain ⟨hswept₀, hv₀, hentries₀⟩ := h₀.entries hout hlaw (hmade.symm ▸ hsite₀.ground)
    (hmade.symm ▸ hdots₀) hdiscarded₀ (hregistrations ▸ hnames)
  rw [hmade] at hv₀
  have hall : ∀ k : QmlModule, k.IsWellNamed → s.entriesOf u k = s.entriesOf u₀ k := fun k hk => by
    rw [hentries _ (hbase _ hv).symm k hk, hentries₀ _ (hbase _ (hsame.trans hv₀)).symm k hk,
      hregistrations]
    exact merge_of_empty ..
  exact ⟨hswept.read_eq hswept₀ hk (hall k hk), hswept.readText?_eq hswept₀ hk hall⟩

/-- A renewal without a snapshot succeeds when its refresh does for files that are all stale. -/
theorem renews_of_isDiscarded (hdiscarded : Scan.IsDiscarded settings t)
    (hscan : (Scan.ofFiles imp nameOf settings fs t start).result = .ok r) {report : RefreshReport}
    (hrun : (⟨(Scan.ofFiles imp nameOf settings fs t start).tree, [], []⟩ : Workbench).run
      (s.refresh r.registrations (.ofList fs) (.ofList fs)) = (.ok report, w')) :
    Renews imp nameOf settings fs start s t r w'.tree := by
  have hclean : cleanFiles (.ofList fs) (.ofList fs) = .empty := by
    refine SortedMap.ext_find? fun cs => ?_
    unfold cleanFiles
    rw [SortedMap.find?_filter, SortedMap.find?_empty]
    cases hp : (PathSet.ofList fs).find? cs with
    | none => rfl
    | some p => simp [SortedMap.contains, hp]
  refine ⟨hscan, report, w', ?_, rfl⟩
  rw [← hrun, refresh_congr ((Scan.cleanFiles_of_isDiscarded hdiscarded
    (Scan.completed hscan)).trans hclean.symm)]

end Renews

/-! ## A directory with leftovers -/

/-- The tree without the entries below a place. -/
theorem at?_clear {q : Place} (h : q = [] ∨ q = d ∨ ¬ d <+: q) : (t.clear d).at? q = t.at? q := by
  unfold at? clear
  split
  next => rfl
  next hq =>
    rw [SortedMap.find?_filter]
    have hkeep : (q == d || !d.isPrefixOf q) = true := by
      rcases h.resolve_left hq with rfl | hnot
      · simp
      · have hoff : d.isPrefixOf q = false := by
          rw [← Bool.not_eq_true, List.isPrefixOf_iff_prefix]
          exact hnot
        simp [hoff]
    cases t.entries.find? q <;> simp [hkeep]

theorem at?_clear_below {ns : List String} (hne : ns ≠ []) : (t.clear d).at? (d ++ ns) = none := by
  unfold at? clear
  rw [if_neg (by simp [hne]), SortedMap.find?_filter]
  have hdrop : (d ++ ns == d || !d.isPrefixOf (d ++ ns)) = false := by simp [hne]
  cases t.entries.find? (d ++ ns) <;> simp [hdrop]

theorem within_clear (t : FileTree) (d : Place) : Within d t (t.clear d) := by
  refine ⟨fun q hq => at?_clear ?_, rfl, rfl⟩
  by_cases hprefix : d <+: q
  · obtain ⟨ns, rfl⟩ := hprefix
    by_cases hne : ns = []
    · exact .inr (.inl (by rw [hne, List.append_nil]))
    · exact absurd rfl (hq ns hne)
  · exact .inr (.inr hprefix)

theorem canonicalOr_root (t : FileTree) : t.canonicalOr (pathOf []) = pathOf [] :=
  LeadsDown.canonicalOr_pathOf ⟨nofun, fun _ _ _ h => by simp at h, fun _ _ _ h => by simp at h⟩

/-- The module `a` registers a class from this input file. -/
def inputTable (inputFile : String) : ModuleTable := .ofList
  [("a", ⟨some ⟨"/a.py"⟩, [], none, [⟨⟨"u", 1, 0⟩, plainEntry inputFile⟩]⟩)]

/-- A scan of `/a.py`. -/
def inputScan (inputFile : String) (t : FileTree) : Scan.Outcome TableImporter.State :=
  Scan.ofFiles (TableImporter.ofTable (inputTable inputFile)) (ModuleName.ofFile [⟨"/"⟩])
    plainSettings [⟨"/a.py"⟩] t .empty

/-- The refresh after a scan of `/a.py`. -/
def inputRefresh (s : Stubs) (inputFile : String) (t : FileTree) :
    Except RefreshError RefreshReport × Workbench :=
  (⟨(inputScan inputFile t).tree, [], []⟩ : Workbench).run
    (s.refresh [⟨⟨"u", 1, 0⟩, plainEntry inputFile⟩] (.ofList [⟨"/a.py"⟩]) (.ofList [⟨"/a.py"⟩]))

/-- A snapshot of another version, a `qmldir` file of `u`, and a types file of `v`. -/
def leftoverTree : FileTree where
  entries := .ofList [(["a.py"], .file .empty ⟨100, 0⟩ false), (["r"], .file .empty ⟨100, 0⟩ true),
    (["o"], .directory ⟨100, 0⟩),
    (["o", "metadata.json"], .file stored.toUTF8 ⟨100, 0⟩ false),
    (["o", "u"], .directory ⟨100, 0⟩),
    (["o", "u", "qmldir"], .file "module u\n".toUTF8 ⟨100, 0⟩ false),
    (["o", "v"], .directory ⟨100, 0⟩),
    (["o", "v", "types1-0.json"], .file former.toUTF8 ⟨100, 0⟩ false)]
  current := []
  clock := ⟨200, 0⟩
where
  stored : String := "\x7b\"modules\":\x7b\x7d,\"generating_version\":\"0.0.1\"\x7d"
  former : String :=
    "[\x7b\"classes\":[],\"QML_IMPORT_MAJOR_VERSION\":1,\"QML_IMPORT_MINOR_VERSION\":0," ++
      "\"inputFile\":\"/a.py\"\x7d]"

/-- The same tree with an empty output directory. -/
def emptiedTree : FileTree := leftoverTree.clear ["o"]

/-- The first tree has a snapshot that cannot be read, and the second one has none. -/
theorem snapshots_leftover :
    (Snapshot.read leftoverTree (Snapshot.pathIn plainSettings.outDir)).toBool = false ∧
    emptiedTree.isPresent (Snapshot.pathIn plainSettings.outDir) = false := by decide +kernel

theorem isDiscarded_leftoverTree : Scan.IsDiscarded plainSettings leftoverTree := by
  have herror := snapshots_leftover.1
  cases hr : Snapshot.read leftoverTree (Snapshot.pathIn plainSettings.outDir) with
  | error e => exact .inr ⟨e, hr⟩
  | ok s =>
    rw [hr] at herror
    exact absurd herror (by simp [Except.toBool])

theorem isDiscarded_emptiedTree : Scan.IsDiscarded plainSettings emptiedTree :=
  .inl snapshots_leftover.2

/-- Both trees have the output directory, entries with names, and nothing else. -/
theorem entries_leftover :
    (∀ t ∈ [leftoverTree, emptiedTree], ((t.place? ⟨"/o"⟩).toOption = some ["o"] ∧
      t.isDirectoryAt ["o"] = true) ∧ t.isDirectoryAt t.current = true ∧
      ∀ e ∈ t.entries.entries, t.isDirectoryAt e.1.dropLast = true ∧ IsPlain e.2 ∧
        ∀ n ∈ e.1, IsName n ∧ IsShort n) ∧
    ∀ e ∈ leftoverTree.entries.entries, leftoverTree.isDirectoryAt e.1 = true →
      ∀ n ∈ e.1, '.' ∉ n.toList := by decide +kernel

theorem site_leftover {t : FileTree} (ht : t ∈ [leftoverTree, emptiedTree]) :
    Site t ⟨"/o"⟩ ["o"] := by
  obtain ⟨hplace, hcurrent, hentries⟩ := entries_leftover.1 t ht
  exact .of_entries (by decide) (by decide) hplace hcurrent hentries

theorem site_leftoverTree : Site leftoverTree ⟨"/o"⟩ ["o"] := site_leftover (List.mem_cons_self ..)

theorem site_emptiedTree : Site emptiedTree ⟨"/o"⟩ ["o"] :=
  site_leftover (List.mem_cons_of_mem _ (List.mem_cons_self ..))

theorem hasPlainDots_leftoverTree : HasPlainDots leftoverTree ["o"] :=
  hasPlainDots_of_undotted site_leftoverTree.ground (.of_entries entries_leftover.2)

/-- The scan and the refresh of the small directory succeed, and the class is registered. -/
structure Completes (s : Stubs) (inputFile : String) (t : FileTree) : Prop where
  scan : (inputScan inputFile t).result.toBool = true
  state : (Scan.importFiles (TableImporter.ofTable (inputTable inputFile))
    (ModuleName.ofFile [⟨"/"⟩]) t [⟨⟨"/a.py"⟩, .new⟩] Trace.empty.start .empty).state.registrations =
      [⟨⟨"u", 1, 0⟩, plainEntry inputFile⟩]
  refresh : (inputRefresh s inputFile t).1.toBool = true

instance (s : Stubs) (inputFile : String) (t : FileTree) : Decidable (Completes s inputFile t) :=
  decidable_of_iff (_ ∧ _ ∧ _) ⟨fun ⟨h, h', h''⟩ => ⟨h, h', h''⟩, fun ⟨h, h', h''⟩ => ⟨h, h', h''⟩⟩

/-- Then it is a renewal. -/
theorem Completes.exists_renews {s : Stubs} {inputFile : String} {t : FileTree}
    (h : Completes s inputFile t) (hdiscarded : Scan.IsDiscarded plainSettings t) :
    ∃ r, r.registrations = [⟨⟨"u", 1, 0⟩, plainEntry inputFile⟩] ∧
      Renews (TableImporter.ofTable (inputTable inputFile)) (ModuleName.ofFile [⟨"/"⟩]) plainSettings
        [⟨"/a.py"⟩] .empty s t r (inputRefresh s inputFile t).2.tree := by
  obtain ⟨r, hr⟩ := exists_ok_of_toBool h.scan
  obtain ⟨report, hreport⟩ := exists_ok_of_toBool h.refresh
  have hregistrations : r.registrations = [⟨⟨"u", 1, 0⟩, plainEntry inputFile⟩] := by
    rw [(Scan.completed hr).report, ← h.state]
    unfold Scan.reportOf Scan.importDirty
    dsimp only
    rw [Scan.dirtyFiles_of_isDiscarded hdiscarded]
    rfl
  have hrefresh : (⟨(inputScan inputFile t).tree, [], []⟩ : Workbench).run
      (s.refresh r.registrations (.ofList [⟨"/a.py"⟩]) (.ofList [⟨"/a.py"⟩])) =
        (.ok report, (inputRefresh s inputFile t).2) := by
    rw [hregistrations]
    exact Prod.ext hreport rfl
  exact ⟨r, hregistrations, renews_of_isDiscarded hdiscarded hr hrefresh⟩

theorem hasPlainDots_emptiedTree : HasPlainDots emptiedTree ["o"] := fun ns f hsome => by
  rw [emptiedTree, at?_clear_below (by simp)] at hsome
  exact absurd hsome (by simp)

theorem isWellNamed_of_registrations {inputFile : String} {r : ScanReport}
    (h : r.registrations = [⟨⟨"u", 1, 0⟩, plainEntry inputFile⟩]) :
    ∀ reg ∈ r.registrations, reg.module.IsWellNamed := by
  intro reg hreg
  rw [h] at hreg
  rw [List.mem_singleton.1 hreg]
  exact isWellNamed_u

theorem madeFor_leftoverTree : Scan.madeFor ⟨"/o"⟩ leftoverTree = leftoverTree :=
  Scan.madeFor_of_reaches (by decide) site_leftoverTree.reaches

theorem madeFor_emptiedTree : Scan.madeFor ⟨"/o"⟩ emptiedTree = emptiedTree :=
  Scan.madeFor_of_reaches (by decide) site_emptiedTree.reaches

/-- What is renewed in the small directory without a relative directory. -/
theorem completed_leftover :
    Completes plainStubs "/a.py" leftoverTree ∧ Completes plainStubs "/a.py" emptiedTree := by
  decide +kernel

/-- A lost snapshot heals: the former entries of `v` are gone, and those of `u` are there. -/
theorem leftover_rebuilt_from_empty : ∃ r r₀ u u₀,
    Renews (TableImporter.ofTable (inputTable "/a.py")) (ModuleName.ofFile [⟨"/"⟩]) plainSettings
      [⟨"/a.py"⟩] .empty plainStubs leftoverTree r u ∧
    Renews (TableImporter.ofTable (inputTable "/a.py")) (ModuleName.ofFile [⟨"/"⟩]) plainSettings
      [⟨"/a.py"⟩] .empty plainStubs emptiedTree r₀ u₀ ∧
    ∀ k : QmlModule, k.IsWellNamed →
      (TypesFile.read u (plainStubs.typesPath k)).toOption =
        (TypesFile.read u₀ (plainStubs.typesPath k)).toOption ∧
      (u.readText? (plainStubs.qmldirPath k)).toOption =
        (u₀.readText? (plainStubs.qmldirPath k)).toOption := by
  obtain ⟨r, hregistrations, h⟩ := completed_leftover.1.exists_renews isDiscarded_leftoverTree
  obtain ⟨r₀, -, h₀⟩ := completed_leftover.2.exists_renews isDiscarded_emptiedTree
  have hmade : Scan.madeFor plainStubs.outDir leftoverTree = leftoverTree := madeFor_leftoverTree
  refine ⟨r, r₀, _, _, h, h₀, rebuilt_from_empty _ _ plainSettings [⟨"/a.py"⟩]
    TableImporter.State.empty plainStubs ["o"] leftoverTree emptiedTree _ _ r r₀ rfl
    (Registrar.onlyWritesOutputs_scripted _ _ _) ?_ ?_ isDiscarded_leftoverTree site_emptiedTree ?_
    (fun ns hne => at?_clear_below hne) ?_ h h₀ ?_⟩
  · exact hmade.symm ▸ site_leftoverTree
  · exact hmade.symm ▸ hasPlainDots_leftoverTree
  · exact hmade.symm ▸ within_clear leftoverTree ["o"]
  · intro v hv
    rw [hmade] at hv ⊢
    show v.canonicalOr (pathOf v.current) = leftoverTree.canonicalOr (pathOf [])
    rw [hv.current, canonicalOr_root]
    exact canonicalOr_root v
  · exact isWellNamed_of_registrations hregistrations

/-- Input files are written relative to a directory that is there only with the leftovers. -/
def detourStubs : Stubs := { plainStubs with relativeTo := some ⟨"/o/u/.."⟩ }

/-- The entry that the detour leaves depends on where it leads. -/
theorem completed_detour :
    (Completes detourStubs "/o/u/../../a.py" leftoverTree ∧
      detourStubs.base (inputScan "/o/u/../../a.py" leftoverTree).tree = ⟨"/o"⟩) ∧
    Completes detourStubs "/o/u/../../a.py" emptiedTree ∧
      detourStubs.base (inputScan "/o/u/../../a.py" emptiedTree).tree = ⟨"/o/u/.."⟩ := by
  decide +kernel

theorem completed_unknown :
    Completes plainStubs "/o/v/../../a.py" leftoverTree ∧
    (inputScan "/o/v/../../a.py" emptiedTree).result.toBool = true ∧
      (inputRefresh plainStubs "/o/v/../../a.py" emptiedTree).1.toBool = false := by decide +kernel

/-- **Leftovers can show.** A directory that is there only as a leftover changes what input files are
relative to, and an input file that is found only through one ends the refresh without it. -/
theorem leftovers_show :
    Scan.IsDiscarded plainSettings leftoverTree ∧ Site leftoverTree ⟨"/o"⟩ ["o"] ∧
    HasPlainDots leftoverTree ["o"] ∧ (⟨"u", 1, 0⟩ : QmlModule).IsWellNamed ∧
    (∃ r r₀ u u₀,
      r.registrations = [⟨⟨"u", 1, 0⟩, plainEntry "/o/u/../../a.py"⟩] ∧
      Renews (TableImporter.ofTable (inputTable "/o/u/../../a.py")) (ModuleName.ofFile [⟨"/"⟩])
        plainSettings [⟨"/a.py"⟩] .empty detourStubs leftoverTree r u ∧
      Renews (TableImporter.ofTable (inputTable "/o/u/../../a.py")) (ModuleName.ofFile [⟨"/"⟩])
        plainSettings [⟨"/a.py"⟩] .empty detourStubs emptiedTree r₀ u₀ ∧
      (TypesFile.read u (detourStubs.typesPath ⟨"u", 1, 0⟩)).toOption ≠
        (TypesFile.read u₀ (detourStubs.typesPath ⟨"u", 1, 0⟩)).toOption) ∧
    ∃ r u,
      r.registrations = [⟨⟨"u", 1, 0⟩, plainEntry "/o/v/../../a.py"⟩] ∧
      Renews (TableImporter.ofTable (inputTable "/o/v/../../a.py")) (ModuleName.ofFile [⟨"/"⟩])
        plainSettings [⟨"/a.py"⟩] .empty plainStubs leftoverTree r u ∧
      (inputRefresh plainStubs "/o/v/../../a.py" emptiedTree).1.toBool = false := by
  refine ⟨isDiscarded_leftoverTree, site_leftoverTree, hasPlainDots_leftoverTree, isWellNamed_u, ?_, ?_⟩
  · obtain ⟨⟨hcompletes, hbase⟩, hcompletes₀, hbase₀⟩ := completed_detour
    obtain ⟨r, hregistrations, h⟩ := hcompletes.exists_renews isDiscarded_leftoverTree
    obtain ⟨r₀, hregistrations₀, h₀⟩ := hcompletes₀.exists_renews isDiscarded_emptiedTree
    have hlaw := Registrar.onlyWritesOutputs_scripted ⟨"/r"⟩ [] none
    obtain ⟨-, -, hentries⟩ := h.entries (d := ["o"]) rfl hlaw
      (madeFor_leftoverTree.symm ▸ site_leftoverTree.ground)
      (madeFor_leftoverTree.symm ▸ hasPlainDots_leftoverTree) isDiscarded_leftoverTree
      (isWellNamed_of_registrations hregistrations)
    obtain ⟨-, -, hentries₀⟩ := h₀.entries (d := ["o"]) rfl hlaw
      (madeFor_emptiedTree.symm ▸ site_emptiedTree.ground)
      (madeFor_emptiedTree.symm ▸ hasPlainDots_emptiedTree) isDiscarded_emptiedTree
      (isWellNamed_of_registrations hregistrations₀)
    refine ⟨r, r₀, _, _, hregistrations, h, h₀, fun hread => ?_⟩
    have hsame := entriesOf_eq_of_read_eq hread
    rw [hentries _ hbase.symm _ isWellNamed_u, hentries₀ _ hbase₀.symm _ isWellNamed_u,
      hregistrations, hregistrations₀] at hsame
    exact absurd (congrArg (List.map TypesEntry.inputFile) hsame) (by decide +kernel)
  · obtain ⟨hcompletes, -, hrun₀⟩ := completed_unknown
    obtain ⟨r, hregistrations, h⟩ := hcompletes.exists_renews isDiscarded_leftoverTree
    exact ⟨r, _, hregistrations, h, hrun₀⟩

end Stubs

end QmlStubs
