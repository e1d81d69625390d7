import QmlStubs.Proofs.ByteOrder
import QmlStubs.Proofs.Outputs
import QmlStubs.Proofs.RegistrarRuns

/-!
# The output tree

Types files are found again by a search and read as those of their modules, `qmldir` files are found
by a search and removed, and the other two files of a module are removed with its entries. So nothing
is left behind if the tree was tidy before (`Stubs.IsTidy.refresh`): an output belongs to a module
that has entries, and every module with entries has its outputs. An output directory without outputs
is tidy, and so it stays over a history of refreshes that succeed (`Stubs.output_tree_of_history`).

The registrar has to create its outputs when it succeeds. What it does when it fails does not matter,
since the refresh fails then (`Stubs.run_refresh_careful`).
-/

set_option autoImplicit false

namespace QmlStubs

open FileTree

namespace Registrar

/-- A registrar that, when it succeeds, has changed files by writing its outputs, and they are
there. What it does when it fails does not matter. -/
def CreatesOutputs (r : Registrar) : Prop :=
  ∀ args t, (r.behaviour args t).1 = 0 →
    (∃ writes : List (Path × ByteArray), (∀ e ∈ writes, e.1 ∈ outputs args) ∧
      (r.behaviour args t).2 = writes.foldl (fun t e => (t.run (FileTree.write e.1 e.2)).2) t) ∧
    ∀ p ∈ outputs args, (r.behaviour args t).2.isFile p = true

/-- The scripted behaviour creates its outputs. -/
theorem createsOutputs_scripted (path : Path) (searchPath : List Path) :
    CreatesOutputs ⟨path, searchPath, scripted none⟩ := by
  intro args t hstatus
  refine ⟨onlyWritesOutputs_scripted path searchPath none args t, fun p hp => ?_⟩
  dsimp only at hstatus ⊢
  unfold scripted at hstatus ⊢
  dsimp only at hstatus ⊢
  split at hstatus
  next => exact absurd ‹none = some _› (by simp)
  next registrations _ qmltypes _ _ =>
    have hseq := run_seq (t := t) (FileTree.writeText ⟨registrations⟩ "")
      (FileTree.writeText ⟨qmltypes⟩ "")
    cases hfirst : t.run (FileTree.writeText ⟨registrations⟩ "") with
    | mk result u =>
    rw [hfirst] at hseq
    cases result with
    | error e =>
      rw [hseq] at hstatus
      exact absurd hstatus (by simp)
    | ok =>
    dsimp only at hseq
    rw [hseq] at hstatus ⊢
    cases hsecond : u.run (FileTree.writeText ⟨qmltypes⟩ "") with
    | mk result v =>
    rw [hsecond] at hstatus
    cases result with
    | error e => exact absurd hstatus (by simp)
    | ok =>
      show v.isFile p = true
      rcases List.mem_cons.1 hp with rfl | hp
      · exact isFile_run_write (isFile_of_run_write hfirst) hsecond
      · rw [List.mem_singleton.1 hp]
        exact isFile_of_run_write hsecond
  next => exact absurd hstatus (by simp)

/-- The registrar when it leaves everything alone unless it succeeds. -/
def careful (r : Registrar) : Registrar :=
  { r with behaviour := fun args t =>
      if (r.behaviour args t).1 = 0 then r.behaviour args t else ((r.behaviour args t).1, t) }

theorem CreatesOutputs.onlyWritesOutputs_careful {r : Registrar} (h : r.CreatesOutputs) :
    r.careful.OnlyWritesOutputs := by
  intro args t
  unfold careful
  dsimp only
  split
  next hok => exact (h args t hok).1
  next => exact ⟨[], nofun, rfl⟩

theorem CreatesOutputs.careful {r : Registrar} (h : r.CreatesOutputs) :
    r.careful.CreatesOutputs := by
  intro args t
  unfold Registrar.careful
  dsimp only
  split
  next => exact h args t
  next hfail => exact fun hok => absurd hok hfail

end Registrar

namespace Stubs

open Workbench

variable {s : Stubs} {w w' : Workbench} {t u : FileTree} {p : Path} {d : Place} {k : QmlModule}
variable {files stale : PathSet} {registrations : List Registration} {ms : List Settled}

/-! ## A registrar that leaves everything alone unless it succeeds -/

/-- The stubs with a registrar that leaves everything alone unless it succeeds. -/
def careful (s : Stubs) : Stubs := { s with registrar := s.registrar.careful }

theorem run_generate_careful {foreign : List Path} {m : Settled}
    (h : w.run (s.generate foreign m) = (.ok (), w')) :
    w.run (s.careful.generate foreign m) = (.ok (), w') := by
  cases hr : s.registrar.run m.module m.directory foreign w.tree with
  | mk error rest =>
  obtain ⟨started, t⟩ := rest
  have hrun := run_generate hr
  rw [h] at hrun
  have hcareful : s.careful.registrar.run m.module m.directory foreign w.tree =
      (error, started, t) := by
    cases error with
    | some e => exact absurd (Prod.mk.inj hrun).1 (by simp)
    | none =>
      rw [← hr]
      show s.registrar.careful.run m.module m.directory foreign w.tree = _
      unfold Registrar.run at hr ⊢
      dsimp only [Registrar.careful] at hr ⊢
      split
      next => rfl
      next hstart =>
        rw [hstart] at hr
        dsimp only at hr
        have hok : (s.registrar.behaviour (Registrar.arguments m.module m.directory foreign)
            w.tree).1 = 0 := by
          by_contra hne
          rw [if_neg hne] at hr
          exact absurd (Prod.mk.inj hr).1 (by simp)
        rw [if_pos hok]
  rw [run_generate hcareful, hrun]

theorem run_forM_generate_careful {foreign : List Path}
    (h : w.run (ms.forM (s.generate foreign)) = (.ok (), w')) :
    w.run (ms.forM (s.careful.generate foreign)) = (.ok (), w') := by
  induction ms generalizing w with
  | nil => exact h
  | cons m ms ih =>
    obtain ⟨v, hfirst, hrest⟩ := ok_of_run_forM h
    rw [run_forM_cons (run_generate_careful hfirst)]
    exact ih hrest

/-- **A refresh that succeeds does not depend on what the registrar does when it fails.** -/
theorem run_refresh_careful {report : RefreshReport}
    (h : w.run (s.refresh registrations files stale) = (.ok report, w')) :
    w.run (s.careful.refresh registrations files stale) = (.ok report, w') := by
  obtain ⟨metatypes, ms, v, x, hsettle, hgenerate, hreplace, rfl⟩ := of_run_refresh h
  have hsettle' : w.run (s.careful.settleAll registrations files stale) = (.ok (metatypes, ms), v) :=
    hsettle
  have hreplace' : x.run (s.careful.replaceQmldirs (qmldirsOf ms)) = (.ok (), w') := hreplace
  rw [refresh_eq, run_bind, hsettle']
  dsimp only
  rw [run_bind, run_forM_generate_careful hgenerate]
  dsimp only
  rw [run_bind, hreplace']
  rfl


/-! ## Names of outputs -/

/-- A name with a start and an ending, and anything between them. -/
def IsAround (start ending n : String) : Prop :=
  ∃ cs, n.toList = start.toList ++ (cs ++ ending.toList)

/-- A name that the files of a refresh have. -/
def IsOutputName (n : String) : Prop :=
  IsAround "types" ".json" n ∨ IsAround "" ".qmltypes" n ∨
    IsAround "qmltyperegistrations" ".cpp" n ∨ n = "qmldir"

theorem isOutputName_of_mem_fileNames {n : String} (h : n ∈ k.fileNames) : IsOutputName n := by
  rcases QmlModule.mem_fileNames.1 h with rfl | rfl | rfl
  · exact .inl ⟨_, k.toList_typesFileName⟩
  · exact .inr (.inr (.inl ⟨_, k.toList_registrationsFileName⟩))
  · refine .inr (.inl ⟨"types".toList ++ k.versionChars, ?_⟩)
    rw [k.toList_qmltypesFileName, List.append_assoc]
    rfl

theorem isOutputName_of_versionOfFileName? {n : String} {v : UInt32 × UInt32}
    (h : QmlModule.versionOfFileName? n = some v) : IsOutputName n :=
  .inl (QmlModule.toList_of_versionOfFileName? h)

/-- Only a `qmldir` file has a name without a dot. -/
theorem IsOutputName.dot_mem {n : String} (h : IsOutputName n) (hn : n ≠ "qmldir") :
    '.' ∈ n.toList := by
  rcases h with ⟨cs, hcs⟩ | ⟨cs, hcs⟩ | ⟨cs, hcs⟩ | rfl
  · rw [hcs]
    simp
  · rw [hcs]
    simp
  · rw [hcs]
    simp
  · exact absurd rfl hn

/-! ## Tidy trees -/

/-- A place of a file that a module with entries has: one of its three, or the `qmldir` file of its
directory. -/
def IsKept (s : Stubs) (d : Place) (t : FileTree) (q : Place) : Prop :=
  ∃ k : QmlModule, k.IsWellNamed ∧ s.entriesOf t k ≠ [] ∧
    (TouchedBy d k q ∨ q = qmldirAt d k.parts)

/-- **The outputs below the output directory are the files of the modules with entries.** -/
structure IsTidy (s : Stubs) (d : Place) (t : FileTree) : Prop where
  only : ∀ ns n, IsOutputName n → (t.at? (d ++ (ns ++ [n]))).isSome = true →
    IsKept s d t (d ++ (ns ++ [n]))
  all : ∀ q, IsKept s d t q → (t.contentAt? q).isSome = true

/-- A line of the `qmldir` file of the modules with a name: one for each version that has entries,
and one for each module that their entries depend on. -/
def IsQmldirLine (s : Stubs) (t : FileTree) (uri l : String) : Prop :=
  ∃ k : QmlModule, k.IsWellNamed ∧ k.uri = uri ∧ s.entriesOf t k ≠ [] ∧
    (l = "typeinfo " ++ k.qmltypesFileName ∨
      ∃ e ∈ s.entriesOf t k, ∃ n ∈ e.qtModules ++ e.pyModules, l = "depends " ++ n)

/-- **Every `qmldir` file has the name of its modules and their lines**, sorted by their bytes and each
once. -/
def HasQmldirs (s : Stubs) (d : Place) (t : FileTree) : Prop :=
  ∀ k : QmlModule, k.IsWellNamed → s.entriesOf t k ≠ [] → ∃ lines : List String,
    lines.Pairwise Text.IsBefore ∧ (∀ l, l ∈ lines ↔ s.IsQmldirLine t k.uri l) ∧
    t.contentAt? (qmldirAt d k.parts) =
      some (String.join (("module " ++ k.uri ++ "\n") :: lines.map fun l => l ++ "\n")).toUTF8

/-- In a tidy tree the directories of types files are those of modules. -/
theorem IsTidy.hasPlainDots (h : IsTidy s d t) : HasPlainDots t d := by
  intro ns f hsome hversion n hn part hpart
  obtain ⟨v, hv⟩ := Option.isSome_iff_exists.1 hversion
  obtain ⟨k, hk, -, hq⟩ := h.only ns f (isOutputName_of_versionOfFileName? hv) hsome
  have hns : ns = k.parts := by
    rcases hq with ⟨m, -, hq⟩ | hq
    · exact (List.append_inj' (List.append_cancel_left hq) rfl).1
    · exact (List.append_inj' (List.append_cancel_left hq) rfl).1
  rw [hns] at hn
  unfold Text.splitString at hpart
  rw [Text.split_eq_singleton (QmlModule.not_dot_mem_of_mem_parts hn)] at hpart
  rw [List.mem_singleton.1 hpart, String.ofList_toList]
  exact (hk.isName n hn).ne_empty

/-! ## The files that the registrar creates -/

/-- **A file behind the path of the output directory has the place with its names.** -/
theorem isSome_contentAt?_of_isFile {p : Path} (h : Ground t p d) {ns : List String} (hne : ns ≠ [])
    (hns : ∀ n ∈ ns, IsName n) (hf : t.isFile (joins p ns) = true) :
    (t.contentAt? (d ++ ns)).isSome = true := by
  unfold isFile at hf
  cases hplace : t.place? (joins p ns) with
  | error e =>
    rw [hplace] at hf
    exact absurd hf (by simp)
  | ok q =>
    obtain ⟨-, rfl, hsome⟩ := (h.place?_joins hne hns).1 hplace
    obtain ⟨e, he⟩ := Option.isSome_iff_exists.1 hsome
    rw [hplace] at hf
    unfold contentAt?
    rw [he]
    cases e with
    | link target => exact absurd rfl (h.plain ns _ hne he target)
    | directory time =>
      dsimp only at hf
      rw [isDirectoryAt_iff.2 ⟨time, he⟩] at hf
      exact absurd hf (by simp)
    | file content time x => rfl

section Generate

variable {foreign : List Path} {m : Settled}

/-- A run of the registrar that succeeds leaves the two other files of its module. -/
theorem files_of_run_generate (hlaw : s.registrar.OnlyWritesOutputs)
    (hcreates : s.registrar.CreatesOutputs) (h : Ground w.tree s.outDir d)
    (hk : m.module.IsWellNamed) (hdir : m.directory = m.module.directoryIn s.outDir)
    (hrun : w.run (s.generate foreign m) = (.ok (), w')) :
    ∀ n ∈ m.module.otherNames,
      (w'.tree.contentAt? (d ++ (m.module.parts ++ [n]))).isSome = true := by
  intro n hn
  have hground : Ground w'.tree s.outDir d := by
    have hchange : Change s.outDir d (IsBeside d m.module) w.tree
        (w.run (s.generate foreign m)).2.tree := change_generate hlaw h hk hdir
    rw [hrun] at hchange
    exact hchange.ground
  have hnames : ∀ x ∈ m.module.parts ++ [n], IsName x := by
    intro x hx
    rcases List.mem_append.1 hx with hx | hx
    · exact hk.isName x hx
    · rw [List.mem_singleton.1 hx]
      exact QmlModule.isName_of_mem_otherNames hn
  refine isSome_contentAt?_of_isFile hground (by simp) hnames ?_
  cases hr : s.registrar.run m.module m.directory foreign w.tree with
  | mk error rest =>
  obtain ⟨started, t⟩ := rest
  have hgenerate := run_generate hr
  rw [hrun] at hgenerate
  obtain ⟨hok, rfl⟩ := Prod.mk.inj hgenerate
  unfold Registrar.run at hr
  dsimp only at hr
  split at hr
  next =>
    rw [← (Prod.mk.inj hr).1] at hok
    exact absurd hok (by simp)
  next =>
    obtain ⟨herror, hrest⟩ := Prod.mk.inj hr
    have hstatus : (s.registrar.behaviour (Registrar.arguments m.module m.directory foreign)
        w.tree).1 = 0 := by
      by_contra hne
      rw [← herror, if_neg hne] at hok
      exact absurd hok (by simp)
    have hfiles := (hcreates _ _ hstatus).2 ((m.directory).join n)
    rw [(Prod.mk.inj hrest).2, hdir] at hfiles
    rw [joins_concat]
    refine hfiles ?_
    unfold Registrar.arguments Registrar.outputs
    unfold QmlModule.otherNames at hn
    rcases List.mem_cons.1 hn with rfl | hn
    · exact List.mem_cons_self ..
    · rw [List.mem_singleton.1 hn]
      exact List.mem_cons_of_mem _ (List.mem_cons_self ..)

/-- **When all runs succeed the files of all their modules are there.** -/
theorem files_of_run_forM_generate (hlaw : s.registrar.OnlyWritesOutputs)
    (hcreates : s.registrar.CreatesOutputs) (h : Ground w.tree s.outDir d)
    (hnodup : (ms.map (·.module)).Nodup)
    (hms : ∀ m ∈ ms, m.module.IsWellNamed ∧ m.directory = m.module.directoryIn s.outDir)
    (hrun : w.run (ms.forM (s.generate foreign)) = (.ok (), w')) :
    ∀ m ∈ ms, ∀ n ∈ m.module.otherNames,
      (w'.tree.contentAt? (d ++ (m.module.parts ++ [n]))).isSome = true := by
  induction ms generalizing w with
  | nil => exact nofun
  | cons m ms ih =>
    obtain ⟨v, hfirst, hrest⟩ := ok_of_run_forM hrun
    obtain ⟨hk, hdir⟩ := hms m (List.mem_cons_self ..)
    have hms' : ∀ m ∈ ms, m.module.IsWellNamed ∧ m.directory = m.module.directoryIn s.outDir :=
      fun m hm => hms m (List.mem_cons_of_mem _ hm)
    obtain ⟨hnot, hnodup'⟩ := List.nodup_cons.1 hnodup
    have hchange : Change s.outDir d (IsBeside d m.module) w.tree
        (w.run (s.generate foreign m)).2.tree := change_generate hlaw h hk hdir
    rw [hfirst] at hchange
    intro m' hm' n hn
    rcases List.mem_cons.1 hm' with rfl | hm'
    · -- What the first run leaves is not touched by the others.
      have hothers : Change s.outDir d (fun q => ∃ m ∈ ms, IsBeside d m.module q) v.tree
          (v.run (ms.forM (s.generate foreign))).2.tree :=
        change_forM_generate hlaw hchange.ground hms'
      rw [hrest] at hothers
      have hq : TouchedBy d m'.module (d ++ (m'.module.parts ++ [n])) :=
        ⟨n, List.mem_cons_of_mem _ hn, rfl⟩
      rw [contentAt?_of_at?_eq (hothers.at?_eq ?_ hq.not_isMade)]
      · exact files_of_run_generate hlaw hcreates h hk hdir hfirst n hn
      · rintro ⟨m, hm, hbeside⟩
        exact hnot (List.mem_map.2 ⟨m, hm, (hq.unique hbeside.touchedBy).symm⟩)
    · exact ih hchange.ground hnodup' hms' hrest m' hm' n hn

end Generate

/-! ## What a refresh leaves is tidy -/

section Leaves

variable {v x : FileTree} {q : Place}

/-- The types file of a module with entries is there. -/
theorem isSome_contentAt?_typesNames (h : Ground t s.outDir d) (hk : k.IsWellNamed)
    (hne : s.entriesOf t k ≠ []) : (t.contentAt? (d ++ k.typesNames)).isSome = true := by
  have htext := textError?_typesPath hne
  cases hc : t.contentAt? (d ++ k.typesNames) with
  | some content => rfl
  | none =>
    refine absurd ?_ hne
    rw [entriesOf_eq h hk, if_pos htext, typesAt_eq, hc, Option.elim_none]

/-- **A `qmldir` file of a tidy tree is found when it is to be replaced**, and so is a directory that
was made in the place of one. -/
theorem IsTidy.isFound (h : IsTidy s d t)
    (hc : Change s.outDir d (IsModuleFile d) t x) {ns : List String}
    (hsome : (x.at? (qmldirAt d ns)).isSome = true) :
    Glob.IsFound x s.outDir d qmldirPart ns "qmldir" := by
  have hmatch : qmldirPart.matchesName "qmldir" = true := by decide
  have hnot : ¬ IsModuleFile d (qmldirAt d ns) := fun ⟨k, hk⟩ => hk.not_isQmldir ⟨ns, rfl⟩
  rcases hc.kept _ hnot with hsame | ⟨hnone, time, hdir⟩
  · rw [hsame] at hsome
    obtain ⟨k, hk, hne, hq⟩ := h.only ns "qmldir" (.inr (.inr (.inr rfl))) hsome
    have hq : qmldirAt d ns = qmldirAt d k.parts := hq.resolve_left fun hq => hnot ⟨k, hq⟩
    obtain rfl := qmldirAt_injective hq
    have htext := textError?_typesPath hne
    rw [typesPath_eq] at htext
    exact isFound_of_textError? hc.ground k.isName_typesFileName (hsame ▸ hsome) hmatch htext
  · rcases hc.made _ (isDirectoryAt_iff.2 ⟨time, hdir⟩) with hdir' | ⟨ms, m, hq, -, htext⟩
    · rw [isDirectoryAt_eq_false_of_at? hnone] at hdir'
      exact absurd hdir' (by simp)
    · rw [← List.append_cancel_left hq] at htext
      exact isFound_of_textError? hc.ground QmlModule.isName_qmldir hsome hmatch htext

/-- **What has the name of an output after a refresh is a file of a module with entries.** -/
theorem Leaves.isKept (h : Leaves s d ms t u)
    (hsettled : SettledTypes s d registrations files stale t v ms) (ht : Ground t s.outDir d)
    (htidy : IsTidy s d t) {ns : List String} {n : String} (hn : IsOutputName n)
    (hsome : (u.at? (d ++ (ns ++ [n]))).isSome = true) : IsKept s d u (d ++ (ns ++ [n])) := by
  have hkept : ∀ m ∈ keptOf ms, m.module.IsWellNamed ∧ s.entriesOf u m.module ≠ [] := fun m hm =>
    (h.exists_mem_keptOf hsettled).1 ⟨m, hm, rfl⟩
  by_cases hqmldir : n = "qmldir"
  · subst hqmldir
    obtain ⟨x, hc, hreplaced⟩ := h.replaced
    have hns : ∀ n ∈ ns, IsName n := fun n hn =>
      (h.change.ground.names hsome n (List.mem_append_left _ hn)).1
    by_cases hdir : ∃ q ∈ qmldirsOf ms, q.directory = joins s.outDir ns
    · obtain ⟨q, hq, hdir⟩ := hdir
      obtain ⟨m, hm, -, hbelow⟩ := hsettled.isQmldirBelow hq
      obtain ⟨hk, hne⟩ := hkept m hm
      have hparts := Glob.joins_injective hns hbelow.1 (hdir.symm.trans hbelow.2)
      exact ⟨m.module, hk, hne, .inr (by rw [hparts]; rfl)⟩
    · -- A file that is not written is removed, for it was found.
      have hnone : ∀ q ∈ qmldirsOf ms, q.directory ≠ joins s.outDir ns := fun q hq he =>
        hdir ⟨q, hq, he⟩
      have hsome : (u.at? (qmldirAt d ns)).isSome = true := hsome
      have hc : Change s.outDir d (IsModuleFile d) t x := hc.mono fun q ⟨m, _, hq⟩ => ⟨_, hq⟩
      by_cases hfound : Glob.IsFound x s.outDir d qmldirPart ns "qmldir"
      · rw [hreplaced.removed ns hns hnone hfound] at hsome
        exact absurd hsome (by simp)
      · rw [hreplaced.kept ns hns hnone hfound] at hsome
        exact absurd (htidy.isFound hc hsome) hfound
  · by_cases htouched : ∃ m ∈ ms, TouchedBy d m.module (d ++ (ns ++ [n]))
    · obtain ⟨m, hm, hq⟩ := htouched
      have hne : m.entries ≠ [] := by
        intro hnil
        obtain ⟨n', hn', he⟩ := hq
        rw [he, (h.gone m hm hnil n' hn').2] at hsome
        exact absurd hsome (by simp)
      obtain ⟨hk, hne⟩ := hkept m (mem_keptOf.2 ⟨hm, hne⟩)
      exact ⟨m.module, hk, hne, .inl hq⟩
    · -- What is not touched was there before, as a file of a module that is settled.
      have hnot : ¬ IsQmldir d (d ++ (ns ++ [n])) := by
        rintro ⟨ms, hq⟩
        have hname := (List.append_inj' (List.append_cancel_left hq) rfl).2
        exact hqmldir (List.singleton_inj.1 hname)
      rw [h.change.at?_eq (fun hq => hq.elim htouched hnot)
        (not_isMade (hn.dot_mem hqmldir))] at hsome
      obtain ⟨k, hk, hne, hq⟩ := htidy.only ns n hn hsome
      have hlisted : IsListed t s.outDir d k := by
        by_contra hnone
        exact hne (entriesOf_eq_nil ht hk hnone)
      obtain ⟨m, hm, rfl⟩ := hsettled.listed k hlisted
      exact absurd (hq.elim (fun hq => ⟨m, hm, hq⟩) fun hq => absurd ⟨_, hq⟩ hnot) htouched

/-- **The files of the modules with entries are there after a refresh.** -/
theorem Leaves.isSome_contentAt? (h : Leaves s d ms t u)
    (hsettled : SettledTypes s d registrations files stale t v ms) (htidy : IsTidy s d t)
    (hcreated : ∀ m ∈ changedOf ms, ∀ n ∈ m.module.otherNames,
      (u.contentAt? (d ++ (m.module.parts ++ [n]))).isSome = true)
    (hq : IsKept s d u q) : (u.contentAt? q).isSome = true := by
  obtain ⟨k, hk, hne, hq⟩ := hq
  obtain ⟨m, hm, rfl⟩ := (h.exists_mem_keptOf hsettled).2 ⟨hk, hne⟩
  obtain ⟨hmem, hentries⟩ := mem_keptOf.1 hm
  rcases hq with ⟨n, hn, rfl⟩ | rfl
  · rcases List.mem_cons.1 hn with rfl | hn
    · exact isSome_contentAt?_typesNames h.change.ground hk hne
    · cases hchanged : m.changed with
      | true => exact hcreated m (mem_changedOf.2 ⟨hmem, hentries, hchanged⟩) n hn
      | false =>
        rw [contentAt?_of_at?_eq (h.beside m hmem hentries hchanged n hn)]
        have hold : m.entries = s.entriesOf t m.module := by
          by_contra hnew
          have hchanged' := (hsettled.changed hmem).2 ⟨hentries, hnew⟩
          rw [hchanged] at hchanged'
          exact absurd hchanged' (by simp)
        exact htidy.all _ ⟨m.module, hk, hold ▸ hentries, .inl ⟨n, List.mem_cons_of_mem _ hn, rfl⟩⟩
  · obtain ⟨x, -, hreplaced⟩ := h.replaced
    obtain ⟨q, hq, -, hbelow, -⟩ := hsettled.exists_mem_qmldirsOf hm
    obtain ⟨-, y, hy⟩ := hreplaced.written q hq _ hbelow
    unfold contentAt?
    rw [hy]
    rfl

/-- **The `qmldir` files after a refresh.** -/
theorem Leaves.hasQmldirs (h : Leaves s d ms t u)
    (hsettled : SettledTypes s d registrations files stale t v ms) : HasQmldirs s d u := by
  intro k hk hne
  obtain ⟨m, hm, rfl⟩ := (h.exists_mem_keptOf hsettled).2 ⟨hk, hne⟩
  obtain ⟨x, -, hreplaced⟩ := h.replaced
  obtain ⟨q, hq, huri, hbelow, hlines⟩ := hsettled.exists_mem_qmldirsOf hm
  obtain ⟨-, y, hy⟩ := hreplaced.written q hq _ hbelow
  refine ⟨q.lines.toList, (SortedMap.keys_pairwise _).imp Text.isBefore_of_compare,
    fun l => (hlines l).trans ?_, ?_⟩
  · have hline : ∀ m' ∈ keptOf ms, l ∈ qmldirLines m' ↔
        l = "typeinfo " ++ m'.module.qmltypesFileName ∨
          ∃ e ∈ s.entriesOf u m'.module, ∃ n ∈ e.qtModules ++ e.pyModules, l = "depends " ++ n := by
      intro m' hm'
      rw [h.entries m' (mem_keptOf.1 hm').1]
      unfold qmldirLines
      rw [List.mem_cons, List.mem_flatMap]
      simp only [List.mem_map, eq_comm]
    constructor
    · rintro ⟨m', hm', huri', hl⟩
      obtain ⟨hk', hne'⟩ := (h.exists_mem_keptOf hsettled).1 ⟨m', hm', rfl⟩
      exact ⟨m'.module, hk', huri', hne', (hline m' hm').1 hl⟩
    · rintro ⟨k', hk', huri', hne', hl⟩
      obtain ⟨m', hm', rfl⟩ := (h.exists_mem_keptOf hsettled).2 ⟨hk', hne'⟩
      exact ⟨m', hm', huri', (hline m' hm').2 hl⟩
  · unfold contentAt?
    rw [hy]
    unfold Qmldir.text
    rw [huri]

end Leaves

theorem entriesOf_careful : s.careful.entriesOf t k = s.entriesOf t k := entriesOf_of_outDir_eq rfl

/-- Where the outputs are the same a tree stays tidy. -/
theorem IsTidy.of_same {s' : Stubs} (h : IsTidy s d t)
    (hentries : ∀ k : QmlModule, k.IsWellNamed → s'.entriesOf u k = s.entriesOf t k)
    (hsame : ∀ ns n, IsOutputName n → u.at? (d ++ (ns ++ [n])) = t.at? (d ++ (ns ++ [n]))) :
    IsTidy s' d u := by
  have hkept : ∀ q, IsKept s' d u q ↔ IsKept s d t q := fun q =>
    exists_congr fun k => and_congr_right fun hk => by
      rw [hentries k hk]
  refine ⟨fun ns n hn hsome => ?_, fun q hq => ?_⟩
  · rw [hsame ns n hn] at hsome
    exact (hkept _).2 (h.only ns n hn hsome)
  · have hq := (hkept q).1 hq
    obtain ⟨ns, n, hn, rfl⟩ : ∃ ns n, IsOutputName n ∧ q = d ++ (ns ++ [n]) := by
      obtain ⟨k, -, -, ⟨n, hn, hq⟩ | hq⟩ := hq
      · exact ⟨k.parts, n, isOutputName_of_mem_fileNames hn, hq⟩
      · exact ⟨k.parts, "qmldir", .inr (.inr (.inr rfl)), hq⟩
    rw [contentAt?_of_at?_eq (hsame ns n hn)]
    exact h.all _ hq

/-- **A refresh that succeeds leaves a tidy tree tidy.** -/
theorem IsTidy.refresh {report : RefreshReport} (h : IsTidy s d w.tree)
    (hground : Ground w.tree s.outDir d) (htext : textError? s.outDir = none)
    (hcreates : s.registrar.CreatesOutputs) (hregs : ∀ r ∈ registrations, r.module.IsWellNamed)
    (hrun : w.run (s.refresh registrations files stale) = (.ok report, w')) :
    Ground w'.tree s.outDir d ∧ IsTidy s d w'.tree ∧ HasQmldirs s d w'.tree := by
  have hlaw : s.careful.registrar.OnlyWritesOutputs := hcreates.onlyWritesOutputs_careful
  have htidy : IsTidy s.careful d w.tree := h.of_same (fun _ _ => entriesOf_careful) fun _ _ _ => rfl
  obtain ⟨metatypes, ms, v, x, -, hgenerate, -, hsettled, hleaves, -, hlast⟩ :=
    leaves_of_run_refresh (s := s.careful) hground htext hlaw htidy.hasPlainDots hregs
      (run_refresh_careful hrun)
  have hfiles := files_of_run_forM_generate hlaw hcreates.careful hsettled.change.ground
    (hsettled.nodup.sublist (List.Sublist.map _ ((List.filter_sublist).trans List.filter_sublist)))
    (fun m hm => hsettled.named (mem_changedOf.1 hm).1) hgenerate
  have hcreated : ∀ m ∈ changedOf ms, ∀ n ∈ m.module.otherNames,
      (w'.tree.contentAt? (d ++ (m.module.parts ++ [n]))).isSome = true := by
    intro m hm n hn
    have hq : TouchedBy d m.module (d ++ (m.module.parts ++ [n])) :=
      ⟨n, List.mem_cons_of_mem _ hn, rfl⟩
    rw [contentAt?_of_at?_eq (hlast.at?_eq hq.not_isQmldir hq.not_isMade)]
    exact hfiles m hm n hn
  have hafter : IsTidy s.careful d w'.tree :=
    ⟨fun _ _ hn hsome => hleaves.isKept hsettled hground htidy hn hsome,
      fun _ hq => hleaves.isSome_contentAt? hsettled htidy hcreated hq⟩
  refine ⟨hleaves.change.ground, hafter.of_same (fun _ _ => entriesOf_careful.symm) fun _ _ _ => rfl, ?_⟩
  have hqmldirs := hleaves.hasQmldirs hsettled
  unfold HasQmldirs IsQmldirLine at hqmldirs ⊢
  simpa only [entriesOf_careful] using hqmldirs

/-! ## Histories -/

/-- Below a place there are no outputs and no links. -/
def IsVacant (d : Place) (t : FileTree) : Prop :=
  ∀ ns n e, t.at? (d ++ (ns ++ [n])) = some e → IsPlain e ∧ ¬ IsOutputName n

/-- Below a place the outputs are the same, and there are no links. -/
structure Spares (d : Place) (t u : FileTree) : Prop where
  outputs : ∀ ns n, IsOutputName n → u.at? (d ++ (ns ++ [n])) = t.at? (d ++ (ns ++ [n]))
  plain : ∀ ns n e, u.at? (d ++ (ns ++ [n])) = some e → IsPlain e

namespace Call

/-- A call that succeeds, on an output directory that is there. -/
structure IsOrderly (p : Path) (d : Place) (c : Call) : Prop where
  outDir : c.stubs.outDir = p
  isTree : IsTree c.bench.tree
  named : ∀ q n e, c.bench.tree.at? (q ++ [n]) = some e → IsName n ∧ IsShort n
  place : c.bench.tree.place? p = .ok d
  directory : c.bench.tree.isDirectoryAt d = true
  registered : ∀ r ∈ c.registrations, r.module.IsWellNamed
  creates : c.stubs.registrar.CreatesOutputs
  succeeds : c.outcome.1.toBool = true

/-- The last of calls that all succeed, the first of which finds no outputs, and none of which finds
them other than the one before has left them. -/
inductive Follows (p : Path) (d : Place) : Call → Prop where
  | first {c : Call} (h : c.IsOrderly p d) (hvacant : IsVacant d c.bench.tree) : Follows p d c
  | next {c c' : Call} (hc : Follows p d c) (h : c'.IsOrderly p d)
      (hspares : Spares d c.outcome.2.tree c'.bench.tree) : Follows p d c'

variable {c c' : Call}

theorem Follows.isOrderly (h : c.Follows p d) : c.IsOrderly p d := by
  cases h with
  | first h _ => exact h
  | next _ h _ => exact h

theorem IsOrderly.ground (h : c.IsOrderly p d) (hp : p.IsDirect)
    (hplain : ∀ ns n e, c.bench.tree.at? (d ++ (ns ++ [n])) = some e → FileTree.IsPlain e) :
    Ground c.bench.tree c.stubs.outDir d := by
  obtain ⟨htext, -⟩ := place?_eq_ok.1 h.place
  rw [h.outDir]
  refine ⟨h.isTree, hp, (reaches_iff htext).2 ⟨h.place, h.directory⟩, fun ns e hne he => ?_, h.named⟩
  obtain ⟨init, n, rfl⟩ := (List.eq_nil_or_concat' ns).resolve_left hne
  exact hplain init n e he

theorem IsOrderly.textError? (h : c.IsOrderly p d) : textError? c.stubs.outDir = none := by
  rw [h.outDir]
  exact (place?_eq_ok.1 h.place).1

/-- **A call leaves a tidy tree tidy.** -/
theorem IsOrderly.after (h : c.IsOrderly p d) (hground : Ground c.bench.tree c.stubs.outDir d)
    (htidy : IsTidy c.stubs d c.bench.tree) :
    Ground c.outcome.2.tree c.stubs.outDir d ∧ IsTidy c.stubs d c.outcome.2.tree ∧
      HasQmldirs c.stubs d c.outcome.2.tree := by
  obtain ⟨report, hrun⟩ := exists_pair_of_toBool h.succeeds
  exact htidy.refresh hground h.textError? h.creates h.registered hrun

/-- **Every call of a history finds a tidy tree.** -/
theorem Follows.before (hp : p.IsDirect) (h : c.Follows p d) :
    Ground c.bench.tree c.stubs.outDir d ∧ IsTidy c.stubs d c.bench.tree := by
  induction h with
  | @first c h hvacant =>
    have hground := h.ground hp fun ns n e he => (hvacant ns n e he).1
    have hnone : ∀ ns n, IsOutputName n → c.bench.tree.at? (d ++ (ns ++ [n])) = none := by
      intro ns n hn
      cases he : c.bench.tree.at? (d ++ (ns ++ [n])) with
      | none => rfl
      | some e => exact absurd hn (hvacant ns n e he).2
    refine ⟨hground, fun ns n hn hsome => ?_, fun q ⟨k, hk, hne, _⟩ => ?_⟩
    · rw [hnone ns n hn] at hsome
      exact absurd hsome (by simp)
    · have htypes := isSome_contentAt?_typesNames hground hk hne
      unfold contentAt? QmlModule.typesNames at htypes
      rw [hnone _ _ (isOutputName_of_mem_fileNames (List.mem_cons_self ..))] at htypes
      exact absurd htypes (by simp)
  | @next c c' hc h hspares ih =>
    obtain ⟨hground, htidy, -⟩ := hc.isOrderly.after ih.1 ih.2
    have hground' := h.ground hp hspares.plain
    have houtDir : c'.stubs.outDir = c.stubs.outDir := h.outDir.trans hc.isOrderly.outDir.symm
    refine ⟨hground', htidy.of_same (fun k hk => ?_) hspares.outputs⟩
    rw [entriesOf_of_outDir_eq houtDir]
    refine entriesOf_of_contentAt?_eq hground (houtDir ▸ hground') hk (contentAt?_of_at?_eq ?_)
    exact hspares.outputs _ _ (isOutputName_of_mem_fileNames (List.mem_cons_self ..))

/-- A call that finds what the one before it has left. -/
theorem Follows.succ (hp : p.IsDirect) (hc : c.Follows p d) (hbench : c'.bench = c.outcome.2)
    (houtDir : c'.stubs.outDir = p) (hregs : ∀ r ∈ c'.registrations, r.module.IsWellNamed)
    (hcreates : c'.stubs.registrar.CreatesOutputs) (hok : c'.outcome.1.toBool = true) :
    c'.Follows p d := by
  obtain ⟨hground, htidy⟩ := hc.before hp
  obtain ⟨hground', -⟩ := hc.isOrderly.after hground htidy
  have htext := hc.isOrderly.textError?
  obtain ⟨hplace, hdir⟩ := (reaches_iff htext).1 hground'.reaches
  rw [hc.isOrderly.outDir] at hplace
  have hplain : ∀ ns n e, c.outcome.2.tree.at? (d ++ (ns ++ [n])) = some e →
      FileTree.IsPlain e := fun ns n e he => hground'.plain _ e (by simp) he
  have hspares : Spares d c.outcome.2.tree c'.bench.tree := by
    rw [hbench]
    exact ⟨fun _ _ _ => rfl, hplain⟩
  refine hc.next ⟨houtDir, ?_, ?_, ?_, ?_, hregs, hcreates, hok⟩ hspares <;> rw [hbench]
  · exact hground'.isTree
  · exact hground'.named
  · exact hplace
  · exact hdir

end Call

/-- **The output tree.** After calls that all succeed the outputs below the output directory are
exactly the files of the modules with entries: the clean former entries and the fresh ones. -/
theorem output_tree_of_history (p : Path) (d : Place) (c : Call) (hp : p.IsDirect)
    (h : c.Follows p d) :
    IsTidy c.stubs d c.outcome.2.tree ∧ HasQmldirs c.stubs d c.outcome.2.tree ∧
      ∀ k : QmlModule, k.IsWellNamed → ∃ v, Within d c.bench.tree v ∧
        c.entries k = merge v (c.stubs.base c.bench.tree) (cleanFiles c.files c.stale) (c.former k)
          (c.stubs.freshOf (c.stubs.base c.bench.tree) c.registrations k) := by
  obtain ⟨hground, htidy⟩ := h.before hp
  have horderly := h.isOrderly
  obtain ⟨-, htidy', hqmldirs⟩ := horderly.after hground htidy
  refine ⟨htidy', hqmldirs, fun k hk => ?_⟩
  obtain ⟨report, hrun⟩ := exists_pair_of_toBool horderly.succeeds
  have hdots : HasPlainDots c.bench.tree d := htidy.hasPlainDots
  obtain ⟨-, -, hall⟩ := entriesOf_refresh (s := c.stubs.careful) hground horderly.textError?
    horderly.creates.onlyWritesOutputs_careful hdots horderly.registered (run_refresh_careful hrun)
  obtain ⟨v, hv, hentries, -⟩ := hall k hk
  rw [entriesOf_careful, entriesOf_careful] at hentries
  exact ⟨v, hv, hentries⟩

/-! ## Two calls -/

/-- A call before any class is registered. -/
def quietCall : Call := { workingCall with registrations := [], stale := .empty }

/-- The call that registers a class, after it. -/
def secondCall : Call := { workingCall with bench := quietCall.outcome.2 }

theorem outcome_secondCall :
    quietCall.outcome.1.toBool = true ∧ secondCall.outcome.1.toBool = true := by decide +kernel

/-- The two calls are a history. -/
theorem follows_secondCall : secondCall.Follows ⟨"/o"⟩ ["o"] := by
  have hdirect : (⟨"/o"⟩ : Path).IsDirect := isDirect_of_isAbsolute (by decide)
  have hcreates : plainStubs.registrar.CreatesOutputs := Registrar.createsOutputs_scripted _ _
  have hplain : workingCall.IsPlain ⟨"/o"⟩ ["o"] :=
    isPlain_of_retryTree rfl rfl rfl (Registrar.onlyWritesOutputs_scripted _ _ _)
  obtain ⟨hplace, hdir⟩ := (reaches_iff hplain.text).1 hplain.site.reaches
  have hvacant : IsVacant ["o"] quietCall.bench.tree := by
    intro ns n e he
    have hentries : ∀ e ∈ retryTree.entries.entries, e.1.length = 1 := by decide +kernel
    have he : retryTree.at? (["o"] ++ (ns ++ [n])) = some e := he
    unfold at? at he
    rw [if_neg (by simp)] at he
    have hlength := hentries _ (SortedMap.mem_entries.2 he)
    exact absurd hlength (by simp)
  have hfirst : quietCall.Follows ⟨"/o"⟩ ["o"] :=
    .first ⟨rfl, hplain.site.isTree, hplain.site.named, hplace, hdir, nofun, hcreates,
      outcome_secondCall.1⟩ hvacant
  exact hfirst.succ hdirect rfl rfl hplain.named hcreates outcome_secondCall.2

/-- After the second call the tree is tidy, and the module of the class has its files. -/
theorem output_tree_of_secondCall :
    secondCall.Follows ⟨"/o"⟩ ["o"] ∧ (⟨"/o"⟩ : Path).IsDirect ∧
      IsTidy plainStubs ["o"] secondCall.outcome.2.tree ∧
      HasQmldirs plainStubs ["o"] secondCall.outcome.2.tree ∧
      secondCall.entries ⟨"u", 1, 0⟩ ≠ [] := by
  have hdirect : (⟨"/o"⟩ : Path).IsDirect := isDirect_of_isAbsolute (by decide)
  obtain ⟨htidy, hqmldirs, hall⟩ :=
    output_tree_of_history ⟨"/o"⟩ ["o"] secondCall hdirect follows_secondCall
  refine ⟨follows_secondCall, hdirect, htidy, hqmldirs, ?_⟩
  obtain ⟨v, -, hentries⟩ := hall ⟨"u", 1, 0⟩ isWellNamed_u
  rw [hentries]
  refine List.ne_nil_of_mem (a := plainEntry "/a.py") ?_
  unfold merge
  rw [List.mem_mergeSort]
  exact List.mem_append_right _ (List.mem_singleton.2 rfl)

end Stubs

end QmlStubs
