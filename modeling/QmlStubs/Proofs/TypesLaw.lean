import QmlStubs.Proofs.Repeating
import QmlStubs.Proofs.Replacing
import QmlStubs.Proofs.Settling

/-!
# The law of types files

A refresh looks at the modules with registrations and at those that types files below the output
directory are named for (`Stubs.collected`). What becomes of each of them is told by its types file
alone (`FollowsTypesLaw`): with the former entries from clean files and the fresh ones, sorted,

> **it is removed if there are none, it is unchanged if they are the former ones, and otherwise it is
> regenerated and has them in its types file** (`Stubs.types_files_lawful`).

The output directory may be written in any way and modules may have any names, as long as no two of
those that are looked at have one types file. So the directories of `Settling` are used in place of
the sites that `Refreshing` has, and only the last phase needs an argument of its own: it may remove
links, but none that leads to the directory of a module with entries, since each of these gets a
`qmldir` file there.
-/

set_option autoImplicit false

namespace QmlStubs

open FileTree

namespace Stubs

open Workbench

variable {s : Stubs} {w w' : Workbench} {t u v : FileTree} {c d : Place} {k : QmlModule}
variable {ks : List QmlModule} {m : Settled} {ms : List Settled} {report : RefreshReport}
variable {registrations : List Registration} {files stale : PathSet}

/-! ## The modules that are looked at -/

/-- The modules with registrations and those that types files below the output directory are named
for, in their order. -/
def collected (s : Stubs) (t : FileTree) (registrations : List Registration) : List QmlModule :=
  (SortedSet.insertAll (.ofList (registrations.map (·.module)))
    (((Glob.pathsBelow? t s.outDir "**/types*.json".toList).getD []).filterMap
      (QmlModule.ofTypesPath? s.outDir))).toList

theorem pairwise_collected (s : Stubs) (t : FileTree) (registrations : List Registration) :
    (s.collected t registrations).Pairwise fun a b => compare a b = .lt :=
  SortedMap.keys_pairwise _

theorem nodup_collected (s : Stubs) (t : FileTree) (registrations : List Registration) :
    (s.collected t registrations).Nodup :=
  (pairwise_collected s t registrations).imp fun {a b} hlt he => by
    rw [he] at hlt
    exact absurd hlt (by simp)

theorem mem_collected : k ∈ s.collected t registrations ↔
    (∃ p ∈ (Glob.pathsBelow? t s.outDir "**/types*.json".toList).getD [],
      QmlModule.ofTypesPath? s.outDir p = some k) ∨ ∃ r ∈ registrations, r.module = k := by
  unfold collected
  rw [SortedSet.mem_toList_insertAll, SortedSet.mem_toList_ofList, List.mem_filterMap, List.mem_map]

/-- **A refresh looks at the collected modules.** -/
theorem of_run_modules {fresh : Fresh}
    (hfresh : ∀ k, fresh.contains k = true ↔ ∃ r ∈ registrations, r.module = k)
    (hrun : w.run (s.modules fresh) = (.ok ks, w')) :
    w' = w ∧ s.collected w.tree registrations = ks := by
  unfold modules at hrun
  obtain ⟨paths, v, hglob, hrest⟩ := ok_of_run_bind hrun
  obtain ⟨rfl, found, hfound, hmem⟩ := of_run_glob hglob
  obtain ⟨rfl, rfl⟩ := eq_of_run_pure hrest
  refine ⟨rfl, eq_of_pairwise_lt (pairwise_collected ..) (SortedMap.keys_pairwise _) fun k => ?_⟩
  rw [mem_collected, hfound, Option.getD_some, SortedSet.mem_toList_insertAll,
    SortedSet.mem_toList_ofList, SortedMap.mem_keys, hfresh, List.mem_filterMap]
  simp only [hmem]

/-- A collected module is settled, from the tree before a refresh to a tree in it. -/
abbrev SettlesCollected (s : Stubs) (registrations : List Registration) (files stale : PathSet)
    (t u : FileTree) (c : Place) (m : Settled) : Prop :=
  SettlesAt s (s.collected t registrations) (s.base t) files (cleanFiles files stale)
    (s.freshOf (s.base t) registrations) t u c m

/-- The first phase settles the collected modules one after another. -/
theorem exists_of_run_settleAll {metatypes : List Path}
    (hrun : w.run (s.settleAll registrations files stale) = (.ok (metatypes, ms), w')) :
    ∃ fresh, s.group (s.base w.tree) registrations = .ok fresh ∧
      w.run ((s.collected w.tree registrations).mapM
        (s.settle (s.base w.tree) files (cleanFiles files stale) fresh)) = (.ok ms, w') := by
  unfold settleAll at hrun
  have hrun := ok_of_run_get hrun
  dsimp only at hrun
  obtain ⟨fresh, v, hgroup, hrun⟩ := ok_of_run_bind hrun
  obtain ⟨hgroup, rfl⟩ := of_run_group hgroup
  obtain ⟨ks, x, hmodules, hrun⟩ := ok_of_run_bind hrun
  obtain ⟨rfl, rfl⟩ := of_run_modules (fun k => (find?_group hgroup k).2) hmodules
  obtain ⟨paths, y, hglob, hrun⟩ := ok_of_run_bind hrun
  obtain ⟨rfl, -⟩ := of_run_glob hglob
  obtain ⟨settled, z, hsettle, hrun⟩ := ok_of_run_bind hrun
  obtain ⟨hpair, rfl⟩ := eq_of_run_pure hrun
  obtain ⟨rfl, rfl⟩ := Prod.mk.inj hpair
  exact ⟨fresh, hgroup, hsettle⟩

/-- **After the first phase each collected module is settled.** -/
theorem of_run_settleAllOwn (ht : IsTree w.tree)
    (hown : HaveOwnFiles s w.tree (s.collected w.tree registrations)) {metatypes : List Path}
    (hrun : w.run (s.settleAll registrations files stale) = (.ok (metatypes, ms), w')) :
    ms.map (·.module) = s.collected w.tree registrations ∧
      Reworked (fun q => ∃ k ∈ s.collected w.tree registrations, IsFileOf s w.tree k q)
        w.tree w'.tree ∧
      ∀ m ∈ ms, ∃ c, s.SettlesCollected registrations files stale w.tree w'.tree c m := by
  obtain ⟨fresh, hgroup, hsettle⟩ := exists_of_run_settleAll hrun
  obtain ⟨hmodules, hchange, hall⟩ :=
    of_run_mapM_settleOwn (nodup_collected ..) (fun _ => id) ht hown hsettle
  have hfresh := funext fun k => (find?_group hgroup k).1
  rw [hfresh] at hall
  exact ⟨hmodules, hchange, hall⟩

/-! ## The report -/

/-- Each of the modules is in one list of the report. The lists keep the order of the modules, which
is that of their names and versions. -/
structure ReportsEach (ks : List QmlModule) (report : RefreshReport) : Prop where
  increasing : ks.Pairwise fun a b => compare a b = .lt
  once : (report.regenerated ++ report.removed ++ report.unchanged).Perm ks
  regenerated : report.regenerated.Sublist ks
  removed : report.removed.Sublist ks
  unchanged : report.unchanged.Sublist ks

open scoped List in
theorem reportsEach_reportOf (hms : ms.map (·.module) = ks)
    (hks : ks.Pairwise fun a b => compare a b = .lt) : ReportsEach ks (reportOf ms) := by
  subst hms
  have hkept : (keptOf ms).Sublist ms := List.filter_sublist
  refine ⟨hks, ?_, (List.filter_sublist.trans hkept).map _, List.filter_sublist.map _,
    (List.filter_sublist.trans hkept).map _⟩
  have hchanged := List.filter_append_perm (fun m : Settled => m.changed) (keptOf ms)
  have hempty := List.filter_append_perm (fun m : Settled => m.entries.isEmpty) ms
  unfold reportOf
  dsimp only
  rw [← List.map_append, ← List.map_append]
  refine List.Perm.map _ ?_
  calc changedOf ms ++ ms.filter (fun m => m.entries.isEmpty) ++
        (keptOf ms).filter (fun m => !m.changed)
    _ = changedOf ms ++ (ms.filter (fun m => m.entries.isEmpty) ++
        (keptOf ms).filter (fun m => !m.changed)) := List.append_assoc ..
    _ ~ changedOf ms ++ ((keptOf ms).filter (fun m => !m.changed) ++
        ms.filter (fun m => m.entries.isEmpty)) := List.perm_append_comm.append_left _
    _ = changedOf ms ++ (keptOf ms).filter (fun m => !m.changed) ++
        ms.filter (fun m => m.entries.isEmpty) := (List.append_assoc ..).symm
    _ ~ keptOf ms ++ ms.filter (fun m => m.entries.isEmpty) := hchanged.append_right _
    _ ~ ms.filter (fun m => m.entries.isEmpty) ++ keptOf ms := List.perm_append_comm
    _ ~ ms := hempty

/-! ## The law -/

/-- The entries that a module should have: the former ones from clean files, then the fresh ones,
sorted. Its directory has its home at `c`, and input files are looked up in `v`. -/
def wantedEntries (s : Stubs) (registrations : List Registration) (files stale : PathSet)
    (t : FileTree) (c : Place) (v : FileTree) (k : QmlModule) : List TypesEntry :=
  merge v (s.base t) (cleanFiles files stale) (t.typesAt (c ++ [k.typesFileName]))
    (s.freshOf (s.base t) registrations k)

/-- What becomes of a module from a tree `t` to a tree `u`, when it had the former entries and should
have the wanted ones. Its directory has its home at `c`. -/
structure HasOutcome (s : Stubs) (t u : FileTree) (report : RefreshReport) (k : QmlModule) (c : Place)
    (former wanted : List TypesEntry) : Prop where
  stored : wanted ≠ [] → TypesFile.read u (s.typesPath k) = .ok wanted
  removed : wanted = [] → k ∈ report.removed ∧
    ∀ n ∈ k.fileNames, u.isFile ((k.directoryIn s.outDir).join n) = false
  unchanged : wanted ≠ [] → wanted = former → k ∈ report.unchanged ∧ ∃ content,
    t.contentAt? (c ++ [k.typesFileName]) = some content ∧ u.read? (s.typesPath k) = .ok content
  regenerated : wanted ≠ [] → wanted ≠ former → k ∈ report.regenerated

/-- The law for a module in a refresh from a tree `t` to a tree `u`. Input files are looked up in a
tree `v` on the way, which differs from `t` by some of the new directories and by files of the other
modules. -/
structure FollowsTypesLaw (s : Stubs) (registrations : List Registration) (files stale : PathSet)
    (t u : FileTree) (report : RefreshReport) (k : QmlModule) (c : Place) (v : FileTree) :
    Prop where
  home : IsHome t (k.directoryIn s.outDir) c
  lookup : Reworked (IsFileOfOther s t (s.collected t registrations) k) t v
  lookup_directories : ∀ q, v.isDirectoryAt q = true → u.isDirectoryAt q = true
  given : ∀ e ∈ s.wantedEntries registrations files stale t c v k,
    files.has (e.resolvedInput v (s.base t)) = true
  outcome : s.HasOutcome t u report k c (t.typesAt (c ++ [k.typesFileName]))
    (s.wantedEntries registrations files stale t c v k)

/-- **What follows the first phase leaves the modules settled.** -/
theorem SettlesAt.after_generate {base : Path} {clean : PathSet}
    {fresh : QmlModule → List TypesEntry} {x : FileTree} (hlinks : HasLinksOf t u)
    (hown : HaveOwnFiles s t ks) (hnodup : (ms.map (·.module)).Nodup)
    (hks : ∀ m ∈ ms, m.module ∈ ks)
    (hall : ∀ m ∈ ms, ∃ c, SettlesAt s ks base files clean fresh t u c m)
    (hx : Reworked (IsMadeFor u (changedOf ms)) u x) (hm : m ∈ ms)
    (h : SettlesAt s ks base files clean fresh t u c m) :
    SettlesAt s ks base files clean fresh t x c m := by
  refine h.after hx ?_ fun hnil n hn => ?_
  · rintro ⟨m', -, c', -, n, hn, hsame⟩
    have hname := List.singleton_inj.1 (List.append_inj' hsame rfl).2
    exact QmlModule.ne_typesFileName_of_mem_otherNames hn _ hname.symm
  · rintro ⟨m', hm', c', hc', n', hn', hsame⟩
    obtain ⟨hm', hne, -⟩ := mem_changedOf.1 hm'
    obtain ⟨d, hd⟩ := hall m' hm'
    obtain rfl : d = c' := (hd.reaches.isHome (.refl u)).unique hc'
    have hfile : IsFileOf s t m.module (c ++ [n]) :=
      isFileOf_of_isHome (h.directory ▸ h.reaches.isHome hlinks) hn
    have hfile' : IsFileOf s t m'.module (d ++ [n']) :=
      isFileOf_of_isHome (hd.directory ▸ hd.reaches.isHome hlinks) (List.mem_cons_of_mem _ hn')
    have hmodule := hown.unique (hks m hm) (hks m' hm') hfile (hsame ▸ hfile')
    obtain rfl := List.inj_on_of_nodup_map hnodup hm hm' hmodule
    exact hne hnil

/-- Replacing the `qmldir` files leaves the files of modules. -/
theorem contentAt?_of_agreesBut (h : AgreesBut "qmldir" t u) {n : String} (hn : n ∈ k.fileNames) :
    u.contentAt? (c ++ [n]) = t.contentAt? (c ++ [n]) := by
  refine contentAt?_of_at?_eq (h.kept _ fun hlast => ?_)
  rw [List.getLast?_concat] at hlast
  exact k.qmldir_not_mem_fileNames (Option.some.inj hlast ▸ hn)

/-- **The phases of a refresh**, for modules with files of their own. What is settled in the first one
is settled before the last one, and the directories of modules with entries are there in the end. -/
theorem phases_of_run_refresh (ht : IsTree w.tree) (hlaw : s.registrar.OnlyWritesOutputs)
    (hown : HaveOwnFiles s w.tree (s.collected w.tree registrations))
    (hrun : w.run (s.refresh registrations files stale) = (.ok report, w')) :
    ∃ ms x, report = reportOf ms ∧ ms.map (·.module) = s.collected w.tree registrations ∧
      HasLinksOf w.tree x ∧ AgreesBut "qmldir" x w'.tree ∧
      (∀ m ∈ keptOf ms, ∃ c, Reaches w'.tree m.directory c) ∧
      ∀ m ∈ ms, ∃ c, s.SettlesCollected registrations files stale w.tree x c m := by
  obtain ⟨metatypes, ms, v, x, hsettle, hgenerate, hreplace, hreport⟩ := of_run_refresh hrun
  obtain ⟨hmodules, hsettled, hall⟩ := of_run_settleAllOwn ht hown hsettle
  have hlinks := hsettled.hasLinksOf
  have hmem : ∀ m ∈ ms, m.module ∈ s.collected w.tree registrations := fun m hm => by
    rw [← hmodules]
    exact List.mem_map_of_mem hm
  have hnodup : (ms.map (·.module)).Nodup := hmodules ▸ nodup_collected ..
  have hplain : ∀ m ∈ ms, ∀ {y c}, s.SettlesCollected registrations files stale w.tree y c m →
      HasLinksOf w.tree y → ∀ n ∈ "qmldir" :: m.module.fileNames, IsPlainAt y (c ++ [n]) :=
    fun m hm _ c h hy n hn => hy.isPlainAt
      (hown.plain m.module (hmem m hm) c (h.directory ▸ h.reaches.isHome hy) n hn)
  -- the registrar writes beside types files, each in the home of its module
  have hgenerated : Reworked (IsMadeFor v.tree (changedOf ms)) v.tree x.tree := by
    have hruns : Reworked (IsMadeFor v.tree (changedOf ms)) v.tree
        (v.run ((changedOf ms).forM (s.generate (foreignTypes metatypes ms)))).2.tree := by
      refine reworked_forM_generate hlaw hsettled.isTree fun m hm => ?_
      obtain ⟨hm, -⟩ := mem_changedOf.1 hm
      obtain ⟨c, hc⟩ := hall m hm
      exact ⟨c, hc.reaches, fun n hn => hplain m hm hc hlinks n
        (List.mem_cons_of_mem _ (List.mem_cons_of_mem _ hn))⟩
    rwa [hgenerate] at hruns
  have hlinks' : HasLinksOf w.tree x.tree :=
    ((hsettled.mono fun _ _ => trivial).trans (hgenerated.mono fun _ _ => trivial)).hasLinksOf
  have hafter : ∀ m ∈ ms, ∃ c,
      s.SettlesCollected registrations files stale w.tree x.tree c m := by
    intro m hm
    obtain ⟨c, hc⟩ := hall m hm
    exact ⟨c, hc.after_generate hlinks hown hnodup hmem hall hgenerated hm⟩
  -- links may go in the last phase, but a home with a `qmldir` file is reached after it
  have hdirs : ∀ q ∈ qmldirsOf ms, ∃ c, IsHome x.tree q.directory c ∧
      IsPlainAt x.tree (c ++ ["qmldir"]) := by
    intro q hq
    obtain ⟨⟨m, hm, hdir, -⟩, -⟩ := of_mem_qmldirsOf hq
    obtain ⟨hm, -⟩ := mem_keptOf.1 hm
    obtain ⟨c, hc⟩ := hafter m hm
    rw [hdir]
    exact ⟨c, hc.reaches.isHome (.refl _), hplain m hm hc hlinks' _ (List.mem_cons_self ..)⟩
  obtain ⟨hlast, hreach⟩ := agreesBut_replaceQmldirs hgenerated.isTree hdirs hreplace
  refine ⟨ms, x.tree, hreport, hmodules, hlinks', hlast, fun m hm => ?_, hafter⟩
  obtain ⟨q, hq, hcomponents⟩ := exists_mem_qmldirsOf hm
  obtain ⟨c, hc⟩ := hreach q hq
  exact ⟨c, hc.of_components hcomponents.symm⟩

/-- **A settled module has its outcome**, when its directory is still there if it has entries. -/
theorem SettlesAt.hasOutcome {base : Path} {clean : PathSet} {fresh : QmlModule → List TypesEntry}
    {x : FileTree} (h : SettlesAt s ks base files clean fresh t x c m) (hm : m ∈ ms)
    (hown : HaveOwnFiles s t ks) (hk : m.module ∈ ks) (hlinks : HasLinksOf t x)
    (hlast : AgreesBut "qmldir" x u)
    (hkept : m.entries ≠ [] → ∃ c, Reaches u m.directory c) :
    s.HasOutcome t u (reportOf ms) m.module c (t.typesAt (c ++ [m.module.typesFileName]))
      m.entries := by
  have hhome : IsHome t (m.module.directoryIn s.outDir) c :=
    h.directory ▸ h.reaches.isHome hlinks
  have hread : m.entries ≠ [] → ∀ content,
      x.contentAt? (c ++ [m.module.typesFileName]) = some content →
      u.read? (s.typesPath m.module) = .ok content := by
    intro hne content hcontent
    -- the directory is reached again, and its home is the same
    obtain ⟨d, hd⟩ := hkept hne
    obtain rfl := (hd.isHome hlast.hasLinksOf).unique (h.reaches.isHome (.refl x))
    rw [← contentAt?_of_agreesBut hlast (List.mem_cons_self ..)] at hcontent
    have hread := hd.read?_join m.module.isName_typesFileName (h.stored hne).1 hcontent
    rwa [h.directory] at hread
  constructor
  case stored =>
    intro hne
    obtain ⟨-, content, hcontent, hof⟩ := h.stored hne
    unfold TypesFile.read
    rw [hread hne content hcontent]
    dsimp only
    rw [hof]
  case removed =>
    intro hnil
    refine ⟨List.mem_map.2 ⟨m, by simp [hm, hnil], rfl⟩, fun n hn => ?_⟩
    have hgone := h.gone hnil n hn
    rw [← contentAt?_of_agreesBut hlast hn] at hgone
    have hplain := hown.plain m.module hk c hhome n (List.mem_cons_of_mem _ hn)
    refine hhome.isFile_join (hlinks.trans hlast.hasLinksOf fun q hq => ?_)
      (QmlModule.isName_of_mem_fileNames hn) hplain hgone
    rwa [← hlast.directories q]
  case unchanged =>
    intro hne hsame
    have hunchanged : m.changed = false := by
      rw [← Bool.not_eq_true, h.changed]
      exact fun hnew => hnew.2 hsame
    obtain ⟨-, content, hcontent, -⟩ := h.stored hne
    refine ⟨List.mem_map.2 ⟨m, by simp [mem_keptOf, hm, hne, hunchanged], rfl⟩, content, ?_,
      hread hne content hcontent⟩
    rw [← h.same hne hunchanged, hcontent]
  case regenerated =>
    intro hne hnew
    exact List.mem_map.2 ⟨m, mem_changedOf.2 ⟨hm, hne, h.changed.2 ⟨hne, hnew⟩⟩, rfl⟩

/-- **Each collected module follows the law.** -/
theorem followsTypesLaw_refresh (ht : IsTree w.tree) (hlaw : s.registrar.OnlyWritesOutputs)
    (hown : HaveOwnFiles s w.tree (s.collected w.tree registrations))
    (hrun : w.run (s.refresh registrations files stale) = (.ok report, w'))
    (hk : k ∈ s.collected w.tree registrations) : ∃ c v,
      s.FollowsTypesLaw registrations files stale w.tree w'.tree report k c v := by
  obtain ⟨ms, x, rfl, hmodules, hlinks, hlast, hkept, hall⟩ :=
    phases_of_run_refresh ht hlaw hown hrun
  obtain ⟨m, hm, rfl⟩ : ∃ m ∈ ms, m.module = k := by
    rw [← hmodules] at hk
    exact List.mem_map.1 hk
  obtain ⟨c, h⟩ := hall m hm
  obtain ⟨v, hv, hdirs, hentries, hgiven⟩ := h.merged
  have hwanted : s.wantedEntries registrations files stale w.tree c v m.module = m.entries :=
    hentries.symm
  refine ⟨c, v, h.directory ▸ h.reaches.isHome hlinks, hv,
    fun q hq => (hlast.directories q).trans (hdirs q hq), ?_, ?_⟩
  · rw [hwanted]
    exact hgiven
  · rw [hwanted]
    exact h.hasOutcome hm hown hk hlinks hlast fun hne => hkept m (mem_keptOf.2 ⟨hm, hne⟩)

/-- A types file with an entry from the second source. -/
def formerStubs : List (Place × Entry) :=
  [(["o", "v"], .directory ⟨100, 0⟩),
    (["o", "v", "types1-0.json"], .file (storedTree.former "/b.py").toUTF8 ⟨100, 0⟩ false)]

theorem site_formerStubs : Site (sourcesTree formerStubs) plainStubs.outDir ["o"] :=
  .of_entries (by decide) (by decide) (by decide +kernel) (by decide) (by decide +kernel)

/-- The module of the registration and that of the types file have files of their own. -/
theorem haveOwnFiles_formerStubs : HaveOwnFiles plainStubs (sourcesTree formerStubs)
    (plainStubs.collected (sourcesTree formerStubs) oneRegistration) := by
  refine .of_wellNamed (site_formerStubs.reaches.isHome (.refl _)) (by decide)
    site_formerStubs.plain ?_
  unfold QmlModule.IsWellNamed
  decide +kernel

/-- A refresh for the first source beside the second one. -/
theorem refreshOnce_former : (refreshOnce oneRegistration bothSources (.ofList [⟨"/a.py"⟩])
    (sourcesTree formerStubs)).1.toBool = true := by decide +kernel

/-- Entries whose input files are not written relative to a directory are kept as they are. -/
theorem mem_freshOf (hnone : s.relativeTo = none) {r : Registration} (hr : r ∈ registrations)
    (base : Path) : r.entry ∈ s.freshOf base registrations r.module := by
  refine List.mem_filterMap.2 ⟨r, List.mem_filter.2 ⟨hr, by simp⟩, ?_⟩
  unfold relativeEntry
  rw [hnone]
  rfl

end Stubs

end QmlStubs
