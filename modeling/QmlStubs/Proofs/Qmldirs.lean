import QmlStubs.Proofs.RefreshedTree

/-!
# Replacing the `qmldir` files

A refresh removes all `qmldir` files that it finds below the output directory and writes those of
the modules that have entries. What is left is told place by place (`Stubs.Replaces`):

> **the new files are there, the old ones that were found are gone, and nothing else has changed.**

What was replaced can be replaced again (`Stubs.Replaces.run_again`): the files that are found then
are those that were written, and none of them is found twice.
-/

set_option autoImplicit false

namespace QmlStubs

open FileTree

namespace FileTree.Ground

variable {t u : FileTree} {p : Path} {d : Place} {ns : List String} {n : String}

/-- **A file whose path can be used can be removed.** -/
theorem run_removeFile (h : Ground t p d) (hn : IsName n)
    (ht : textError? ((QmlStubs.joins p ns).join n) = none)
    (hsome : (t.at? (d ++ ns ++ [n])).isSome = true)
    (hfree : t.isDirectoryAt (d ++ ns ++ [n]) = false) :
    t.run (removeFile ((QmlStubs.joins p ns).join n)) = (.ok (), t.cut (d ++ ns ++ [n])) := by
  have hdir : t.isDirectoryAt (d ++ ns) = true := h.above (by simp) hsome
  obtain ⟨e, he⟩ := Option.isSome_iff_exists.1 hsome
  have hfound := followParent?_join hn ⟨ht, (h.named _ _ _ he).2⟩ (h.joins hdir).reaches
  rw [if_pos hsome] at hfound
  have hwithout : withoutFile? ((QmlStubs.joins p ns).join n) t = .ok (t.cut (d ++ ns ++ [n])) := by
    unfold withoutFile?
    rw [hfound]
    dsimp only [bind, Except.bind]
    rw [hfree]
    rfl
  unfold removeFile
  rw [run_editBy, hwithout]

/-- **A name in a directory whose path can be used can be written to**, unless it is a directory. -/
theorem run_write (h : Ground t p d) (hn : IsName n)
    (ht : textError? ((QmlStubs.joins p ns).join n) = none) (hshort : IsShort n)
    (hdir : t.isDirectoryAt (d ++ ns) = true)
    (hfree : t.isDirectoryAt (d ++ ns ++ [n]) = false) (content : ByteArray) :
    ∃ x, t.run (write ((QmlStubs.joins p ns).join n) content) =
      (.ok (), t.put (d ++ ns ++ [n]) (.file content t.clock x)) := by
  have hw : Writable t (d ++ ns ++ [n]) := by
    rw [List.append_assoc] at hfree ⊢
    exact h.writable (by simp) hfree
  exact run_write_join hn ⟨ht, hshort⟩ (h.joins hdir).reaches hw content

end FileTree.Ground

namespace Stubs

open Workbench

variable {s : Stubs} {w w' : Workbench} {t u : FileTree} {d : Place} {r : Path}

theorem isShort_qmldir : IsShort "qmldir" := by decide

theorem run_edit_ok {e : Edit} {wrap : FileError → RefreshError} (h : w.tree.run e = (.ok (), u)) :
    w.run (edit e wrap) = (.ok (), { w with tree := u }) := by
  rw [run_edit, h]
  rfl

theorem run_forM_cons {α : Type} {f : α → Refresh Unit} {a : α} {l : List α} {v : Workbench}
    (h : w.run (f a) = (.ok (), v)) : w.run ((a :: l).forM f) = v.run (l.forM f) := by
  have hcons : (a :: l).forM f = f a >>= fun _ => l.forM f := rfl
  rw [hcons, run_bind, h]

/-! ## Removing them -/

/-- A path of a `qmldir` file below another path. -/
def IsQmldirPath (r p : Path) : Prop := ∃ ns, (∀ n ∈ ns, IsName n) ∧ p = joins r (ns ++ ["qmldir"])

theorem joins_qmldir_injective {ns ms : List String} (hns : ∀ n ∈ ns, IsName n)
    (hms : ∀ n ∈ ms, IsName n) (h : joins r (ns ++ ["qmldir"]) = joins r (ms ++ ["qmldir"])) :
    ns = ms := by
  have hnames : ∀ {l : List String}, (∀ n ∈ l, IsName n) → ∀ n ∈ l ++ ["qmldir"], IsName n := by
    intro l hl n hn
    rcases List.mem_append.1 hn with hn | hn
    · exact hl n hn
    · rw [List.mem_singleton.1 hn]
      exact QmlModule.isName_qmldir
  exact (List.append_inj' (Glob.joins_injective (hnames hns) (hnames hms) h) rfl).1

/-- **Files that were removed are gone, and nothing else is.** -/
theorem of_run_removeAll (h : Ground w.tree s.outDir d) {paths : List Path}
    (hpaths : ∀ p ∈ paths, IsQmldirPath (Glob.spelled s.outDir) p)
    (hrun : w.run (paths.forM fun p => edit (FileTree.removeFile p) .file) = (.ok (), w')) :
    Change s.outDir d (IsQmldir d) w.tree w'.tree ∧ ∀ ns, (∀ n ∈ ns, IsName n) →
      (joins (Glob.spelled s.outDir) (ns ++ ["qmldir"]) ∈ paths →
        w'.tree.at? (qmldirAt d ns) = none) ∧
      (joins (Glob.spelled s.outDir) (ns ++ ["qmldir"]) ∉ paths →
        w'.tree.at? (qmldirAt d ns) = w.tree.at? (qmldirAt d ns)) := by
  induction paths generalizing w with
  | nil =>
    obtain ⟨-, rfl⟩ := eq_of_run_pure hrun
    exact ⟨.refl h, fun ns _ => ⟨fun hmem => absurd hmem List.not_mem_nil, fun _ => rfl⟩⟩
  | cons p paths ih =>
    obtain ⟨ms, hms, rfl⟩ := hpaths p (List.mem_cons_self ..)
    obtain ⟨v, hfirst, hrest⟩ := ok_of_run_forM hrun
    have hedit := run_editBy_ok (of_run_edit hfirst)
    rw [joins_concat] at hedit
    have hspelled := ground_spelled h
    obtain ⟨hfree, hcut⟩ := hspelled.withoutFile?_ok hms QmlModule.isName_qmldir hedit
    have hone : Change s.outDir d (IsQmldir d) w.tree v.tree :=
      (h.change_withoutFile? hspelled hms QmlModule.isName_qmldir hedit).mono
        fun q hq => hq ▸ isQmldir_concat d _
    have hat : ∀ q, v.tree.at? q = if q = qmldirAt d ms then none else w.tree.at? q := by
      intro q
      rw [hcut, qmldirAt_eq]
      exact h.isTree.at?_cut hfree q
    obtain ⟨hothers, hall⟩ := ih hone.ground (fun p hp => hpaths p (List.mem_cons_of_mem _ hp)) hrest
    refine ⟨hone.trans hothers, fun ns hns => ?_⟩
    obtain ⟨hgone, hsame⟩ := hall ns hns
    by_cases hmem : joins (Glob.spelled s.outDir) (ns ++ ["qmldir"]) ∈ paths
    · exact ⟨fun _ => hgone hmem, fun hnot => absurd (List.mem_cons_of_mem _ hmem) hnot⟩
    · rw [hsame hmem, hat]
      constructor
      · intro hcons
        have heq := (List.mem_cons.1 hcons).resolve_right hmem
        rw [joins_qmldir_injective hns hms heq, if_pos rfl]
      · intro hnot
        rw [if_neg]
        intro heq
        rw [qmldirAt_injective heq] at hnot
        exact hnot (List.mem_cons_self ..)

/-- **Files whose paths can be used are removed**, if none is removed twice. -/
theorem run_removeAll (h : Ground w.tree r d) {paths : List Path} (hnodup : paths.Nodup)
    (hpaths : ∀ p ∈ paths, textError? p = none ∧ ∃ ns, (∀ n ∈ ns, IsName n) ∧
      p = joins r (ns ++ ["qmldir"]) ∧ (w.tree.at? (qmldirAt d ns)).isSome = true ∧
      w.tree.isDirectoryAt (qmldirAt d ns) = false) :
    ∃ u, w.run (paths.forM fun p => edit (FileTree.removeFile p) .file) =
      (.ok (), { w with tree := u }) := by
  induction paths generalizing w with
  | nil => exact ⟨w.tree, rfl⟩
  | cons p paths ih =>
    obtain ⟨hnot, hrest⟩ := List.nodup_cons.1 hnodup
    obtain ⟨htext, ms, hms, rfl, hsome, hfree⟩ := hpaths p (List.mem_cons_self ..)
    rw [qmldirAt_eq] at hsome hfree
    rw [joins_concat] at htext
    have hrun := h.run_removeFile QmlModule.isName_qmldir htext hsome hfree
    rw [← joins_concat] at hrun
    have hchange := h.change_cut hfree
    have hat := h.isTree.at?_cut hfree
    have hlater : ∀ p ∈ paths, textError? p = none ∧ ∃ ns, (∀ n ∈ ns, IsName n) ∧
        p = joins r (ns ++ ["qmldir"]) ∧
        ((w.tree.cut (d ++ ms ++ ["qmldir"])).at? (qmldirAt d ns)).isSome = true ∧
        (w.tree.cut (d ++ ms ++ ["qmldir"])).isDirectoryAt (qmldirAt d ns) = false := by
      intro p hp
      obtain ⟨htext', ns, hns, rfl, hsome', hfree'⟩ := hpaths p (List.mem_cons_of_mem _ hp)
      have hne : qmldirAt d ns ≠ d ++ ms ++ ["qmldir"] := by
        rw [← qmldirAt_eq]
        intro heq
        exact hnot (qmldirAt_injective heq ▸ hp)
      have hsame : (w.tree.cut (d ++ ms ++ ["qmldir"])).at? (qmldirAt d ns) =
          w.tree.at? (qmldirAt d ns) := by rw [hat, if_neg hne]
      refine ⟨htext', ns, hns, rfl, by rw [hsame]; exact hsome', ?_⟩
      unfold isDirectoryAt at hfree' ⊢
      rwa [hsame]
    obtain ⟨u, hu⟩ := ih (w := { w with tree := w.tree.cut (d ++ ms ++ ["qmldir"]) })
      hchange.ground hrest hlater
    exact ⟨u, (run_forM_cons (f := fun p => edit (FileTree.removeFile p) .file)
      (run_edit_ok hrun)).trans hu⟩

/-! ## Writing them -/

/-- The directory of a `qmldir` file lies below the output directory. -/
def IsQmldirBelow (p : Path) (ns : List String) (q : Qmldir) : Prop :=
  (∀ n ∈ ns, IsName n) ∧ q.directory = joins p ns

theorem path_of_isQmldirBelow {ns : List String} {q : Qmldir} (h : IsQmldirBelow r ns q) :
    q.path = (joins r ns).join "qmldir" := by
  unfold Qmldir.path
  rw [h.2]

/-- **Files that were written have their text**, and others are as they were. -/
theorem of_run_writeAll (h : Ground w.tree r d) {dirs : List Qmldir}
    (hdirs : ∀ q ∈ dirs, ∃ ns, IsQmldirBelow r ns q)
    (hdistinct : dirs.Pairwise fun q q' => q.directory ≠ q'.directory)
    (hrun : w.run (dirs.forM fun q => edit (FileTree.writeText q.path q.text) .file) = (.ok (), w')) :
    Change r d (IsQmldir d) w.tree w'.tree ∧ ∀ ns, (∀ n ∈ ns, IsName n) →
      (∀ q ∈ dirs, q.directory = joins r ns → textError? (joins r (ns ++ ["qmldir"])) = none ∧
        ∃ x, w'.tree.at? (qmldirAt d ns) = some (.file q.text.toUTF8 w.tree.clock x)) ∧
      ((∀ q ∈ dirs, q.directory ≠ joins r ns) →
        w'.tree.at? (qmldirAt d ns) = w.tree.at? (qmldirAt d ns)) := by
  induction dirs generalizing w with
  | nil =>
    obtain ⟨-, rfl⟩ := eq_of_run_pure hrun
    exact ⟨.refl h, fun ns _ => ⟨fun q hq => absurd hq List.not_mem_nil, fun _ => rfl⟩⟩
  | cons q dirs ih =>
    obtain ⟨hnot, hdistinct⟩ := List.pairwise_cons.1 hdistinct
    obtain ⟨ms, hbelow⟩ := hdirs q (List.mem_cons_self ..)
    obtain ⟨v, hfirst, hrest⟩ := ok_of_run_forM hrun
    have hwrite := of_run_edit hfirst
    rw [path_of_isQmldirBelow hbelow] at hwrite
    obtain ⟨hfits, -, -, x, hput⟩ := h.of_run_write hbelow.1 QmlModule.isName_qmldir hwrite
    have hone : Change r d (IsQmldir d) w.tree v.tree := by
      have hchange : Change r d _ w.tree
          (w.tree.run (FileTree.writeText ((joins r ms).join "qmldir") q.text)).2 :=
        h.change_write hbelow.1 QmlModule.isName_qmldir q.text.toUTF8
      rw [hwrite] at hchange
      exact hchange.mono fun q hq => hq ▸ isQmldir_concat d _
    have hat : ∀ q', v.tree.at? q' = if q' = qmldirAt d ms then
        some (.file q.text.toUTF8 w.tree.clock x) else w.tree.at? q' := by
      intro q'
      rw [hput, qmldirAt_eq]
      exact at?_put (by simp) _ _
    obtain ⟨hothers, hall⟩ := ih hone.ground (fun q hq => hdirs q (List.mem_cons_of_mem _ hq))
      hdistinct hrest
    have hclock : v.tree.clock = w.tree.clock := hone.within.clock
    refine ⟨hone.trans hothers, fun ns hns => ?_⟩
    obtain ⟨hwritten, hsame⟩ := hall ns hns
    rw [hclock] at hwritten
    constructor
    · intro q' hq' hdir
      rcases List.mem_cons.1 hq' with rfl | hq'
      · have hns' : ns = ms :=
          Glob.joins_injective hns hbelow.1 (hdir.symm.trans hbelow.2)
        rw [joins_concat, hns']
        refine ⟨hfits.text, x, ?_⟩
        rw [← hns', hsame (fun q'' hq'' he => hnot q'' hq'' (hdir.trans he.symm)), hat, hns',
          if_pos rfl]
      · exact hwritten q' hq' hdir
    · intro hnone
      rw [hsame fun q' hq' => hnone q' (List.mem_cons_of_mem _ hq'), hat, if_neg]
      intro heq
      rw [qmldirAt_injective heq] at hnone
      exact hnone q (List.mem_cons_self ..) hbelow.2

/-- **Where the directories are the files are written.** -/
theorem run_writeAll (h : Ground w.tree r d) {dirs : List Qmldir}
    (hdirs : ∀ q ∈ dirs, ∃ ns, IsQmldirBelow r ns q ∧
      textError? (joins r (ns ++ ["qmldir"])) = none ∧ w.tree.isDirectoryAt (d ++ ns) = true ∧
      w.tree.isDirectoryAt (qmldirAt d ns) = false) :
    ∃ u, w.run (dirs.forM fun q => edit (FileTree.writeText q.path q.text) .file) =
      (.ok (), { w with tree := u }) := by
  induction dirs generalizing w with
  | nil => exact ⟨w.tree, rfl⟩
  | cons q dirs ih =>
    obtain ⟨ms, hbelow, htext, hdir, hfree⟩ := hdirs q (List.mem_cons_self ..)
    rw [qmldirAt_eq] at hfree
    rw [joins_concat] at htext
    obtain ⟨x, hrun⟩ := h.run_write QmlModule.isName_qmldir htext isShort_qmldir hdir hfree
      q.text.toUTF8
    rw [← path_of_isQmldirBelow hbelow] at hrun
    have hchange := h.change_write hbelow.1 QmlModule.isName_qmldir q.text.toUTF8
    rw [← path_of_isQmldirBelow hbelow, hrun] at hchange
    have hlater : ∀ q' ∈ dirs, ∃ ns, IsQmldirBelow r ns q' ∧
        textError? (joins r (ns ++ ["qmldir"])) = none ∧
        (w.tree.put (d ++ ms ++ ["qmldir"])
          (.file q.text.toUTF8 w.tree.clock x)).isDirectoryAt (d ++ ns) = true ∧
        (w.tree.put (d ++ ms ++ ["qmldir"])
          (.file q.text.toUTF8 w.tree.clock x)).isDirectoryAt (qmldirAt d ns) = false := by
      intro q' hq'
      obtain ⟨ns, hbelow', htext', hdir', hfree'⟩ := hdirs q' (List.mem_cons_of_mem _ hq')
      refine ⟨ns, hbelow', htext', hchange.isDirectoryAt hdir', ?_⟩
      unfold isDirectoryAt at hfree' ⊢
      rw [at?_put (by simp)]
      split
      next he =>
        split at he
        next => exact absurd he (by simp)
        next =>
          rw [he] at hfree'
          exact hfree'
      next => rfl
    obtain ⟨u, hu⟩ := ih
      (w := { w with tree := w.tree.put (d ++ ms ++ ["qmldir"]) (.file q.text.toUTF8 w.tree.clock x) })
      hchange.ground hlater
    exact ⟨u, (run_forM_cons (f := fun q : Qmldir => edit (FileTree.writeText q.path q.text) .file)
      (run_edit_ok hrun)).trans hu⟩

/-! ## Replacing them -/

/-- What replacing the `qmldir` files comes to. -/
structure Replaces (s : Stubs) (d : Place) (dirs : List Qmldir) (t u : FileTree) : Prop where
  change : Change s.outDir d (IsQmldir d) t u
  written : ∀ q ∈ dirs, ∀ ns, IsQmldirBelow s.outDir ns q →
    textError? (joins s.outDir (ns ++ ["qmldir"])) = none ∧
      ∃ x, u.at? (qmldirAt d ns) = some (.file q.text.toUTF8 t.clock x)
  removed : ∀ ns, (∀ n ∈ ns, IsName n) → (∀ q ∈ dirs, q.directory ≠ joins s.outDir ns) →
    Glob.IsFound t s.outDir d qmldirPart ns "qmldir" → u.at? (qmldirAt d ns) = none
  kept : ∀ ns, (∀ n ∈ ns, IsName n) → (∀ q ∈ dirs, q.directory ≠ joins s.outDir ns) →
    ¬ Glob.IsFound t s.outDir d qmldirPart ns "qmldir" →
    u.at? (qmldirAt d ns) = t.at? (qmldirAt d ns)

/-- **After the replacement the new files are there and the old ones are gone.** -/
theorem of_run_replaceQmldirs (h : Ground w.tree s.outDir d) (htext : textError? s.outDir = none)
    {dirs : List Qmldir} (hdirs : ∀ q ∈ dirs, ∃ ns, IsQmldirBelow s.outDir ns q)
    (hdistinct : dirs.Pairwise fun q q' => q.directory ≠ q'.directory)
    (hrun : w.run (s.replaceQmldirs dirs) = (.ok (), w')) :
    Replaces s d dirs w.tree w'.tree := by
  obtain ⟨paths, hglob, -, hmem⟩ := run_globQmldirs h htext
  unfold replaceQmldirs at hrun
  rw [run_bind, hglob] at hrun
  obtain ⟨_, v, hremove, hwrite⟩ := ok_of_run_bind hrun
  have hspelled := ground_spelled h
  have hpaths : ∀ p ∈ paths, IsQmldirPath (Glob.spelled s.outDir) p := by
    intro p hp
    obtain ⟨ns, rfl, hfound⟩ := (hmem p).1 hp
    exact ⟨ns, fun n hn => (h.names hfound.isSome n (List.mem_append_left _ hn)).1, rfl⟩
  obtain ⟨hremoved, hgone⟩ := of_run_removeAll h hpaths hremove
  obtain ⟨hwritten, hall⟩ := of_run_writeAll hremoved.ground hdirs hdistinct hwrite
  have hlisted : ∀ ns, (∀ n ∈ ns, IsName n) →
      (joins (Glob.spelled s.outDir) (ns ++ ["qmldir"]) ∈ paths ↔
        Glob.IsFound w.tree s.outDir d qmldirPart ns "qmldir") := by
    intro ns hns
    rw [hmem]
    refine ⟨fun ⟨ms, he, hfound⟩ => ?_, fun hfound => ⟨ns, rfl, hfound⟩⟩
    have hms : ∀ n ∈ ms, IsName n := fun n hn =>
      (h.names hfound.isSome n (List.mem_append_left _ hn)).1
    rwa [joins_qmldir_injective hns hms he]
  have hclock : v.tree.clock = w.tree.clock := hremoved.within.clock
  refine ⟨hremoved.trans hwritten, fun q hq ns hbelow => ?_, fun ns hns hnone hfound => ?_,
    fun ns hns hnone hfound => ?_⟩
  · obtain ⟨htext', x, hx⟩ := (hall ns hbelow.1).1 q hq hbelow.2
    exact ⟨htext', x, hclock ▸ hx⟩
  · rw [(hall ns hns).2 hnone]
    exact (hgone ns hns).1 ((hlisted ns hns).2 hfound)
  · rw [(hall ns hns).2 hnone]
    exact (hgone ns hns).2 fun hp => hfound ((hlisted ns hns).1 hp)

/-- Where a `qmldir` file is found after a replacement, it was written. -/
theorem Replaces.exists_of_isFound {dirs : List Qmldir} (hr : Replaces s d dirs t u)
    {ns : List String} (hns : ∀ n ∈ ns, IsName n)
    (hfound : Glob.IsFound u s.outDir d qmldirPart ns "qmldir") :
    ∃ q ∈ dirs, IsQmldirBelow s.outDir ns q := by
  by_contra hnone
  have hnone : ∀ q ∈ dirs, q.directory ≠ joins s.outDir ns := fun q hq he =>
    hnone ⟨q, hq, hns, he⟩
  have hsome : (u.at? (qmldirAt d ns)).isSome = true := hfound.isSome
  by_cases hold : Glob.IsFound t s.outDir d qmldirPart ns "qmldir"
  · rw [hr.removed ns hns hnone hold] at hsome
    exact absurd hsome (by simp)
  · rw [hr.kept ns hns hnone hold] at hsome
    exact hold ⟨hsome, hfound.matched, hfound.text⟩

/-- **What was replaced can be replaced again.** -/
theorem Replaces.run_again {dirs : List Qmldir} (hr : Replaces s d dirs t w.tree)
    (htext : textError? s.outDir = none) (hdirs : ∀ q ∈ dirs, ∃ ns, IsQmldirBelow s.outDir ns q ∧
      w.tree.isDirectoryAt (d ++ ns) = true) :
    ∃ u, w.run (s.replaceQmldirs dirs) = (.ok (), { w with tree := u }) := by
  have h := hr.change.ground
  have hspelled := ground_spelled h
  obtain ⟨paths, hglob, hnodup, hmem⟩ := run_globQmldirs h htext
  have hfile : ∀ q ∈ dirs, ∀ ns, IsQmldirBelow s.outDir ns q →
      (w.tree.at? (qmldirAt d ns)).isSome = true ∧ w.tree.isDirectoryAt (qmldirAt d ns) = false := by
    intro q hq ns hbelow
    obtain ⟨-, x, hx⟩ := hr.written q hq ns hbelow
    unfold isDirectoryAt
    rw [hx]
    exact ⟨rfl, rfl⟩
  have hremovable : ∀ p ∈ paths, textError? p = none ∧ ∃ ns, (∀ n ∈ ns, IsName n) ∧
      p = joins (Glob.spelled s.outDir) (ns ++ ["qmldir"]) ∧
      (w.tree.at? (qmldirAt d ns)).isSome = true ∧
      w.tree.isDirectoryAt (qmldirAt d ns) = false := by
    intro p hp
    obtain ⟨ns, rfl, hfound⟩ := (hmem p).1 hp
    have hall : ∀ n ∈ ns ++ ["qmldir"], IsName n := fun n hn => (h.names hfound.isSome n hn).1
    have hns : ∀ n ∈ ns, IsName n := fun n hn => hall n (List.mem_append_left _ hn)
    obtain ⟨q, hq, hbelow⟩ := hr.exists_of_isFound hns hfound
    obtain ⟨htext', -⟩ := hr.written q hq ns hbelow
    exact ⟨Glob.textError?_joins_spelled h.direct (by simp) hall htext', ns, hns, rfl,
      hfile q hq ns hbelow⟩
  obtain ⟨v, hremove⟩ := run_removeAll hspelled hnodup hremovable
  have hpaths : ∀ p ∈ paths, IsQmldirPath (Glob.spelled s.outDir) p := fun p hp => by
    obtain ⟨-, ns, hns, hp, -⟩ := hremovable p hp
    exact ⟨ns, hns, hp⟩
  obtain ⟨hremoved, hgone⟩ := of_run_removeAll h hpaths hremove
  have hwritable : ∀ q ∈ dirs, ∃ ns, IsQmldirBelow s.outDir ns q ∧
      textError? (joins s.outDir (ns ++ ["qmldir"])) = none ∧ v.isDirectoryAt (d ++ ns) = true ∧
      v.isDirectoryAt (qmldirAt d ns) = false := by
    intro q hq
    obtain ⟨ns, hbelow, hdir⟩ := hdirs q hq
    refine ⟨ns, hbelow, (hr.written q hq ns hbelow).1, hremoved.isDirectoryAt hdir, ?_⟩
    have hfree := (hfile q hq ns hbelow).2
    unfold isDirectoryAt at hfree ⊢
    by_cases hp : joins (Glob.spelled s.outDir) (ns ++ ["qmldir"]) ∈ paths
    · rw [(hgone ns hbelow.1).1 hp]
    · rw [(hgone ns hbelow.1).2 hp]
      exact hfree
  obtain ⟨u, hwrite⟩ := run_writeAll (w := { w with tree := v }) hremoved.ground hwritable
  refine ⟨u, ?_⟩
  unfold replaceQmldirs
  rw [run_bind, hglob]
  dsimp only
  rw [run_bind, hremove]
  exact hwrite

end Stubs

end QmlStubs
