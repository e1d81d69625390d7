import QmlStubs.Proofs.Invocations
import QmlStubs.Proofs.Qmldirs

/-!
# What blocks a refresh

The parts of a module's name are directories in the tree where files with fixed names are kept. A
part without a dot can be the name of such a file: of the README in the output directory, or of a
`qmldir` file, which no other search but that for old `qmldir` files finds. So

> **a file in the place of a module's directory blocks every refresh that registers the module**
> (`Stubs.refresh_fails_of_file`), **and a directory in the place of a `qmldir` file blocks every
> refresh** (`Stubs.refresh_fails_of_directory`).

The second one stays: a refresh makes such a directory itself before it fails
(`Stubs.refresh_fails_of_qmldir_part`), and nothing removes it.
-/

set_option autoImplicit false

namespace QmlStubs

open FileTree

namespace Stubs

open Workbench

variable {s : Stubs} {w w' : Workbench} {d : Place} {ns : List String}
variable {registrations : List Registration} {files stale : PathSet} {report : RefreshReport}

/-- A directory in the place of a `qmldir` file is found, but not removed. -/
theorem run_replaceQmldirs_ne (h : Ground w.tree s.outDir d) (htext : textError? s.outDir = none)
    (hns : textError? (joins s.outDir ns) = none) (hdir : w.tree.isDirectoryAt (qmldirAt d ns) = true)
    (dirs : List Qmldir) : w.run (s.replaceQmldirs dirs) ≠ (.ok (), w') := by
  intro hrun
  obtain ⟨time, htime⟩ := isDirectoryAt_iff.1 hdir
  have hsome : (w.tree.at? (qmldirAt d ns)).isSome = true := by
    rw [htime]
    rfl
  have hnames : ∀ n ∈ ns, IsName n := fun n hn => (h.names hsome n (List.mem_append_left _ hn)).1
  obtain ⟨paths, hglob, -, hmem⟩ := run_globQmldirs h htext
  unfold replaceQmldirs at hrun
  rw [run_bind, hglob] at hrun
  obtain ⟨_, v, hremove, -⟩ := ok_of_run_bind hrun
  have hpaths : ∀ p ∈ paths, IsQmldirPath (Glob.spelled s.outDir) p := by
    intro p hp
    obtain ⟨ms, rfl, hfound⟩ := (hmem p).1 hp
    exact ⟨ms, fun n hn => (h.names hfound.isSome n (List.mem_append_left _ hn)).1, rfl⟩
  obtain ⟨hremoved, hgone⟩ := of_run_removeAll h hpaths hremove
  have hspelled : textError? (joins (Glob.spelled s.outDir) ns) = none := by
    by_cases hnil : ns = []
    · rw [hnil]
      exact Glob.textError?_spelled h.direct htext
    · exact Glob.textError?_joins_spelled h.direct hnil hnames hns
  -- what is found is gone when all removals succeed, but directories stay
  have hlisted : joins (Glob.spelled s.outDir) (ns ++ ["qmldir"]) ∈ paths :=
    (hmem _).2 ⟨ns, rfl, hsome, by simp [qmldirPart, Glob.Part.matchesName], hspelled⟩
  have hkept := hremoved.isDirectoryAt hdir
  rw [isDirectoryAt_eq_false_of_at? ((hgone ns hnames).1 hlisted)] at hkept
  exact absurd hkept (by simp)

/-- The directories on the way to a directory below the site are there. -/
theorem isDirectoryAt_of_append {t : FileTree} {p : Path} {more : List String} (h : Ground t p d)
    (hdir : t.isDirectoryAt (d ++ (ns ++ more)) = true) : t.isDirectoryAt (d ++ ns) = true := by
  by_cases hmore : more = []
  · rwa [hmore, List.append_nil] at hdir
  · obtain ⟨time, htime⟩ := isDirectoryAt_iff.1 hdir
    rw [← List.append_assoc] at htime
    exact h.above hmore (Option.isSome_iff_exists.2 ⟨_, htime⟩)

/-- What a refresh has done before its last phase. -/
theorem before_replaceQmldirs (h : Ground w.tree s.outDir d) (htext : textError? s.outDir = none)
    (hlaw : s.registrar.OnlyWritesOutputs) (hdots : HasPlainDots w.tree d)
    (hregs : ∀ r ∈ registrations, r.module.IsWellNamed)
    (hrun : w.run (s.refresh registrations files stale) = (.ok report, w')) :
    ∃ (ms : List Settled) (v x : Workbench), Change s.outDir d (IsModuleFile d) w.tree v.tree ∧
      Change s.outDir d IsOther v.tree x.tree ∧
      x.run (s.replaceQmldirs (qmldirsOf ms)) = (.ok (), w') ∧
      ∀ r ∈ registrations, textError? (joins s.outDir r.module.parts) = none ∧
        v.tree.isDirectoryAt (d ++ r.module.parts) = true := by
  obtain ⟨metatypes, ms, v, x, hsettle, hgenerate, hreplace, -⟩ := of_run_refresh hrun
  have hsettled := of_run_settleAll h htext hdots hregs hsettle
  have hgenerated : Change s.outDir d (fun q => ∃ m ∈ changedOf ms, IsBeside d m.module q) v.tree
      (v.run ((changedOf ms).forM (s.generate (foreignTypes metatypes ms)))).2.tree :=
    change_forM_generate hlaw hsettled.change.ground fun m hm =>
      hsettled.named (mem_changedOf.1 hm).1
  rw [hgenerate] at hgenerated
  refine ⟨ms, v, x, hsettled.change.mono fun q ⟨m, _, hq⟩ => ⟨m.module, hq⟩,
    hgenerated.mono fun q ⟨m, _, hq⟩ => hq.isOther, hreplace, fun r hr => ?_⟩
  obtain ⟨-, hmodules, -⟩ := modules_of_run_settleAll hsettle
  have hmem : r.module ∈ ms.map (·.module) := by
    rw [hmodules]
    exact mem_collected.2 (.inr ⟨r, hr, rfl⟩)
  obtain ⟨m, hm, hmodule⟩ := List.mem_map.1 hmem
  rw [← hmodule]
  exact (hsettled.settled m hm).made

section Blocked

variable (h : Ground w.tree s.outDir d) (htext : textError? s.outDir = none)
variable (hlaw : s.registrar.OnlyWritesOutputs) (hdots : HasPlainDots w.tree d)
variable (hregs : ∀ r ∈ registrations, r.module.IsWellNamed)

include h htext hlaw hdots hregs

/-- **A directory in the place of a `qmldir` file blocks every refresh.** -/
theorem refresh_fails_of_directory (hns : textError? (joins s.outDir ns) = none)
    (hdir : w.tree.isDirectoryAt (qmldirAt d ns) = true) :
    (w.run (s.refresh registrations files stale)).1.toBool = false := by
  rw [← Bool.not_eq_true]
  intro hok
  obtain ⟨report, hrun⟩ := exists_pair_of_toBool hok
  obtain ⟨ms, v, x, hfirst, hsecond, hreplace, -⟩ :=
    before_replaceQmldirs h htext hlaw hdots hregs hrun
  exact run_replaceQmldirs_ne hsecond.ground htext hns
    (hsecond.isDirectoryAt (hfirst.isDirectoryAt hdir)) _ hreplace

/-- **A part `qmldir` in a module's name blocks a refresh that registers the module.** -/
theorem refresh_fails_of_qmldir_part {r : Registration} (hr : r ∈ registrations)
    (hpart : "qmldir" ∈ r.module.parts) :
    (w.run (s.refresh registrations files stale)).1.toBool = false := by
  rw [← Bool.not_eq_true]
  intro hok
  obtain ⟨report, hrun⟩ := exists_pair_of_toBool hok
  obtain ⟨ms, v, x, hfirst, hsecond, hreplace, hmade⟩ :=
    before_replaceQmldirs h htext hlaw hdots hregs hrun
  obtain ⟨hparts, hdir⟩ := hmade r hr
  obtain ⟨ns, rest, hsplit⟩ := List.append_of_mem hpart
  have hnames := (hregs r hr).isName
  rw [hsplit] at hparts hdir hnames
  have hns : textError? (joins s.outDir ns) = none := by
    rw [joins_append] at hparts
    refine textError?_of_joins (isDirect_joins h.direct fun n hn => ?_) (fun n hn => ?_) hparts
    · exact hnames n (List.mem_append_left _ hn)
    · exact hnames n (List.mem_append_right _ hn)
  have hqmldir : v.tree.isDirectoryAt (qmldirAt d ns) = true := by
    have hbelow : v.tree.isDirectoryAt (d ++ ((ns ++ ["qmldir"]) ++ rest)) = true := by
      rwa [List.append_assoc]
    exact isDirectoryAt_of_append hfirst.ground hbelow
  exact run_replaceQmldirs_ne hsecond.ground htext hns (hsecond.isDirectoryAt hqmldir) _ hreplace

/-- **A file in the place of a module's directory**, or on the way to it, **blocks a refresh that
registers the module.** -/
theorem refresh_fails_of_file {r : Registration} (hr : r ∈ registrations) {n : String}
    (hparts : (ns ++ [n]) <+: r.module.parts) (hfile : (w.tree.contentAt? (d ++ (ns ++ [n]))).isSome) :
    (w.run (s.refresh registrations files stale)).1.toBool = false := by
  rw [← Bool.not_eq_true]
  intro hok
  obtain ⟨report, hrun⟩ := exists_pair_of_toBool hok
  obtain ⟨ms, v, x, hfirst, -, -, hmade⟩ := before_replaceQmldirs h htext hlaw hdots hregs hrun
  obtain ⟨-, hdir⟩ := hmade r hr
  obtain ⟨rest, hrest⟩ := hparts
  rw [← hrest] at hdir
  have hdir := isDirectoryAt_of_append hfirst.ground hdir
  -- a module's files have dots in their names, and the parts of a module's name have none
  have hdot : '.' ∉ n.toList := QmlModule.not_dot_mem_of_mem_parts (m := r.module) (hrest ▸ by simp)
  have huntouched : ¬ IsModuleFile d (d ++ (ns ++ [n])) := by
    rintro ⟨k, f, hf, hsame⟩
    have hname := (List.append_inj' (List.append_cancel_left hsame) rfl).2
    exact hdot (List.singleton_inj.1 hname ▸ QmlModule.dot_mem_of_mem_fileNames hf)
  obtain ⟨content, hcontent⟩ := Option.isSome_iff_exists.1 hfile
  unfold contentAt? at hcontent
  split at hcontent
  next time executable hat =>
    unfold isDirectoryAt at hdir
    rw [hfirst.at?_of_some huntouched hat] at hdir
    exact absurd hdir (by simp)
  next => exact absurd hcontent (by simp)

end Blocked

end Stubs

end QmlStubs
