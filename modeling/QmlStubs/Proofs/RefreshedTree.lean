import QmlStubs.Proofs.Refreshing

/-!
# What a refresh leaves

The steps of a refresh are put together here. First all modules are settled, each once, so what one
leaves is not touched by the others. What comes after that writes files of other names only: the
registrar its two outputs (`Registrar.OnlyWritesOutputs`), and the refresh itself the `qmldir`
files. What is left of a types file in the end (`Stubs.entriesOf_refresh`):

> **the former entries whose input file is clean and the fresh ones**, all of which come from
> source files.

This needs that no types file lies in a directory whose name has an empty part between dots
(`HasPlainDots`). Its module would have the files of another one, which is settled twice then.
-/

set_option autoImplicit false

namespace QmlStubs

open FileTree

namespace Registrar

/-- The files that the registrar is told to write. -/
def outputs : List String → List Path
  | _ :: _ :: registrations :: _ :: qmltypes :: _ => [⟨registrations⟩, ⟨qmltypes⟩]
  | _ => []

/-- A registrar that changes files by writing its outputs, whatever it writes to them. -/
def OnlyWritesOutputs (r : Registrar) : Prop :=
  ∀ args t, ∃ writes : List (Path × ByteArray), (∀ e ∈ writes, e.1 ∈ outputs args) ∧
    (r.behaviour args t).2 = writes.foldl (fun t e => (t.run (FileTree.write e.1 e.2)).2) t

/-- The scripted behaviour writes its outputs. -/
theorem onlyWritesOutputs_scripted (path : Path) (searchPath : List Path)
    (fails : Option (String × Nat)) : OnlyWritesOutputs ⟨path, searchPath, scripted fails⟩ := by
  intro args t
  have hnone : ∃ writes : List (Path × ByteArray), (∀ e ∈ writes, e.1 ∈ outputs args) ∧
      t = writes.foldl (fun t e => (t.run (FileTree.write e.1 e.2)).2) t := ⟨[], nofun, rfl⟩
  unfold scripted
  dsimp only
  split
  next => exact hnone
  next registrations _ qmltypes rest hstatus =>
    have hseq := run_seq (t := t) (FileTree.writeText ⟨registrations⟩ "")
      (FileTree.writeText ⟨qmltypes⟩ "")
    have houtputs : ∀ e : Path × ByteArray, e = (⟨registrations⟩, "".toUTF8) ∨
        e = (⟨qmltypes⟩, "".toUTF8) → e.1 ∈ [(⟨registrations⟩ : Path), ⟨qmltypes⟩] := by
      rintro e (rfl | rfl)
      · exact List.mem_cons_self ..
      · exact List.mem_cons_of_mem _ (List.mem_cons_self ..)
    cases hfirst : t.run (FileTree.writeText ⟨registrations⟩ "") with
    | mk result u =>
      rw [hfirst] at hseq
      have htree : (t.run (FileTree.writeText ⟨registrations⟩ "")).2 = u := by rw [hfirst]
      cases result with
      | error e =>
        refine ⟨[(⟨registrations⟩, "".toUTF8)], fun e he => houtputs e (.inl (by simpa using he)), ?_⟩
        split
        next heq => exact absurd (hseq.symm.trans heq) (by simp)
        next heq => exact (Prod.mk.inj (heq.symm.trans hseq)).2.trans htree.symm
      | ok =>
        refine ⟨[(⟨registrations⟩, "".toUTF8), (⟨qmltypes⟩, "".toUTF8)],
          fun e he => houtputs e (by simpa using he), ?_⟩
        have hlast : (t.run (do
            FileTree.writeText ⟨registrations⟩ ""
            FileTree.writeText ⟨qmltypes⟩ "")).2 =
            ((t.run (FileTree.write ⟨registrations⟩ "".toUTF8)).2.run
              (FileTree.write ⟨qmltypes⟩ "".toUTF8)).2 := by
          have htree : (t.run (FileTree.write ⟨registrations⟩ "".toUTF8)).2 = u := htree
          rw [htree]
          exact congrArg Prod.snd hseq
        split
        next heq => exact (congrArg Prod.snd heq).symm.trans hlast
        next heq => exact (congrArg Prod.snd heq).symm.trans hlast
  next => exact hnone

end Registrar

namespace Stubs

open Workbench

variable {s : Stubs} {w w' : Workbench} {t u : FileTree} {d : Place} {k : QmlModule}
variable {base : Path} {files clean stale : PathSet} {fresh : Fresh}

/-! ## All modules -/

/-- What settling several modules comes to. -/
structure SettlesAll (s : Stubs) (d : Place) (base : Path) (files clean : PathSet)
    (fresh : QmlModule → List TypesEntry) (ks : List QmlModule) (t u : FileTree) (ms : List Settled) :
    Prop where
  modules : ms.map (·.module) = ks
  change : Change s.outDir d (fun q => ∃ k ∈ ks, TouchedBy d k q) t u
  settled : ∀ m ∈ ms, Settles s d base files clean fresh t u m

/-- **Modules that are settled one after another do not disturb each other.** -/
theorem of_run_mapM_settle {known : Fresh} {ks : List QmlModule} (hnodup : ks.Nodup)
    (hks : ∀ k ∈ ks, k.IsWellNamed) (h : Ground w.tree s.outDir d) {ms : List Settled}
    (hrun : w.run (ks.mapM (s.settle base files clean known)) = (.ok ms, w')) :
    SettlesAll s d base files clean (fun k => (known.find? k).getD []) ks w.tree w'.tree ms := by
  induction ks generalizing w ms with
  | nil =>
    rw [List.mapM_nil] at hrun
    obtain ⟨rfl, rfl⟩ := eq_of_run_pure hrun
    exact ⟨rfl, .refl h, nofun⟩
  | cons k ks ih =>
    obtain ⟨hnot, hrestnodup⟩ := List.nodup_cons.1 hnodup
    have hk := hks k (List.mem_cons_self ..)
    have hks' : ∀ k ∈ ks, k.IsWellNamed := fun k hk => hks k (List.mem_cons_of_mem _ hk)
    obtain ⟨m, rest, v, rfl, hfirst, hrest⟩ := ok_of_run_mapM hrun
    obtain ⟨rfl, hchange, hsettled⟩ := of_run_settle h hk hfirst
    have hall := ih hrestnodup hks' hchange.ground hrest
    refine ⟨by rw [List.map_cons, hall.modules], ?_, fun m' hm' => ?_⟩
    · exact (hchange.mono fun q hq => ⟨m.module, List.mem_cons_self .., hq⟩).trans
        (hall.change.mono fun q ⟨k', hk', hq⟩ => ⟨k', List.mem_cons_of_mem _ hk', hq⟩)
    · rcases List.mem_cons.1 hm' with rfl | hm'
      · refine hsettled.after hchange.ground hk hall.change (fun q ⟨k', _, hq⟩ => ⟨k', hq⟩) ?_
        rintro q hq ⟨k', hk', hq'⟩
        exact hnot (hq.unique hq' ▸ hk')
      · have hmem : m'.module ∈ ks := by
          rw [← hall.modules]
          exact List.mem_map.2 ⟨m', hm', rfl⟩
        refine (hall.settled m' hm').before h (hks' _ hmem) hchange (fun q hq => ⟨m.module, hq⟩)
          fun q hq hq' => hnot ?_
        exact hq'.unique hq ▸ hmem

/-! ## What is not a types file -/

/-- A place of a file that is written beside the types files. -/
def IsOther (q : Place) : Prop :=
  ∃ n, q.getLast? = some n ∧ (n = "qmldir" ∨ ∃ k : QmlModule, n ∈ k.otherNames)

theorem not_isOther : ¬ IsOther (d ++ k.typesNames) := by
  rintro ⟨n, hn, hother⟩
  unfold QmlModule.typesNames at hn
  rw [← List.append_assoc, List.getLast?_concat] at hn
  rcases hother with rfl | ⟨k', hk'⟩
  · exact QmlModule.qmldir_ne_typesFileName k (Option.some.inj hn).symm
  · exact QmlModule.ne_typesFileName_of_mem_otherNames hk' k (Option.some.inj hn).symm

/-- The places of the files of a module that are made from its types file. -/
def IsBeside (d : Place) (k : QmlModule) (q : Place) : Prop :=
  ∃ n ∈ k.otherNames, q = d ++ (k.parts ++ [n])

theorem IsBeside.isOther {q : Place} (h : IsBeside d k q) : IsOther q := by
  obtain ⟨n, hn, rfl⟩ := h
  exact ⟨n, by rw [← List.append_assoc, List.getLast?_concat], .inr ⟨k, hn⟩⟩

theorem IsBeside.touchedBy {q : Place} (h : IsBeside d k q) : TouchedBy d k q := by
  obtain ⟨n, hn, hq⟩ := h
  exact ⟨n, List.mem_cons_of_mem _ hn, hq⟩

/-- The place of the `qmldir` file in a directory. -/
def qmldirAt (d : Place) (ns : List String) : Place := d ++ (ns ++ ["qmldir"])

theorem qmldirAt_eq (d : Place) (ns : List String) : qmldirAt d ns = d ++ ns ++ ["qmldir"] :=
  (List.append_assoc ..).symm

theorem qmldirAt_injective {ns ms : List String} (h : qmldirAt d ns = qmldirAt d ms) : ns = ms :=
  (List.append_inj' (List.append_cancel_left h) rfl).1

/-- A place of a `qmldir` file. -/
def IsQmldir (d q : Place) : Prop := ∃ ns, q = qmldirAt d ns

theorem IsQmldir.isOther {q : Place} (h : IsQmldir d q) : IsOther q := by
  obtain ⟨ns, rfl⟩ := h
  rw [qmldirAt_eq]
  exact ⟨"qmldir", List.getLast?_concat, .inl rfl⟩

theorem isQmldir_concat (d : Place) (ns : List String) : IsQmldir d (d ++ ns ++ ["qmldir"]) :=
  ⟨ns, (qmldirAt_eq d ns).symm⟩

theorem TouchedBy.not_isQmldir {q : Place} (h : TouchedBy d k q) : ¬ IsQmldir d q := by
  obtain ⟨n, hn, rfl⟩ := h
  rintro ⟨ns, hq⟩
  have hname := (List.append_inj' (List.append_cancel_left hq) rfl).2
  exact QmlModule.qmldir_not_mem_fileNames k (List.singleton_inj.1 hname ▸ hn)

/-- What running the registrar for a module comes to. -/
theorem run_generate {m : Settled} {foreign : List Path} {error : Option RegistrarError}
    {started : Bool} (h : s.registrar.run m.module m.directory foreign w.tree = (error, started, t)) :
    w.run (s.generate foreign m) =
      (error.elim (.ok ()) fun e => .error (.registrar e),
      ⟨t, w.calls ++ (if started then [Registrar.arguments m.module m.directory foreign] else []),
        w.notices ++ [.generating m.module m.entries.length]⟩) := by
  unfold generate
  rw [run_modify_bind, run_get_bind]
  dsimp only
  rw [h]
  dsimp only
  rw [run_set_bind]
  cases error <;> rfl

/-- **An invariant of a registrar's run**: it holds after the run, successful or not, if it holds
before it and is kept by whatever is written into the other files of the module. -/
theorem keeps_generate (hlaw : s.registrar.OnlyWritesOutputs) {m : Settled} (foreign : List Path)
    (I : FileTree → Prop) (h : I w.tree)
    (hstep : ∀ n ∈ m.module.otherNames, ∀ u content, I u →
      I (u.run (FileTree.write (m.directory.join n) content)).2) :
    I (w.run (s.generate foreign m)).2.tree := by
  have htree : (w.run (s.generate foreign m)).2.tree =
      (s.registrar.run m.module m.directory foreign w.tree).2.2 := by
    cases hr : s.registrar.run m.module m.directory foreign w.tree with
    | mk error rest => rw [run_generate hr]
  rw [htree]
  unfold Registrar.run
  dsimp only
  split
  next => exact h
  next =>
    obtain ⟨writes, hmem, hresult⟩ :=
      hlaw (Registrar.arguments m.module m.directory foreign) w.tree
    dsimp only
    rw [hresult]
    refine List.foldlRecOn writes _ h fun u hu e he => ?_
    have hout := hmem e he
    unfold Registrar.arguments Registrar.outputs at hout
    rcases List.mem_cons.1 hout with hout | hout
    · have he : e.1 = m.directory.join m.module.registrationsFileName := hout
      rw [he]
      exact hstep _ (List.mem_cons_self ..) u e.2 hu
    · have he : e.1 = m.directory.join m.module.qmltypesFileName := List.mem_singleton.1 hout
      rw [he]
      exact hstep _ (List.mem_cons_of_mem _ (List.mem_cons_self ..)) u e.2 hu

/-- The registrar changes the other files of its module alone, whether it succeeds or not. -/
theorem change_generate (hlaw : s.registrar.OnlyWritesOutputs) (h : Ground w.tree s.outDir d)
    {m : Settled} (hk : m.module.IsWellNamed) (hdir : m.directory = m.module.directoryIn s.outDir)
    {foreign : List Path} :
    Change s.outDir d (IsBeside d m.module) w.tree (w.run (s.generate foreign m)).2.tree := by
  refine keeps_generate hlaw foreign (Change s.outDir d (IsBeside d m.module) w.tree) (.refl h)
    fun n hn u content hu => ?_
  have hone := hu.ground.change_write hk.isName (QmlModule.isName_of_mem_otherNames hn) content
  rw [hdir]
  exact hu.trans (hone.mono fun q hq => ⟨n, hn, by rw [hq, List.append_assoc]⟩)

theorem addQmldir_eq (dirs : SortedMap (List Component) Qmldir) (m : Settled) :
    addQmldir dirs m = dirs.insert m.directory.components
      { (dirs.find? m.directory.components).getD ⟨m.directory, m.module.uri, .empty⟩ with
        lines := ((dirs.find? m.directory.components).getD
          ⟨m.directory, m.module.uri, .empty⟩).lines.insertAll (qmldirLines m) } := rfl

theorem contains_qmldirs {ms : List Settled} {cs : List Component} :
    (ms.foldl addQmldir .empty).contains cs = true ↔ ∃ m ∈ ms, m.directory.components = cs := by
  induction ms using List.reverseRecOn with
  | nil => simp [SortedMap.contains, SortedMap.find?_empty]
  | append_singleton ms m ih =>
    rw [List.foldl_append, List.foldl_cons, List.foldl_nil, addQmldir_eq, SortedMap.contains_insert,
      ih]
    simp [or_and_right, exists_or, or_comm, eq_comm]

/-- **The `qmldir` file of a directory** is named for a module that lies there, and has the lines of
all modules that do. -/
theorem find?_qmldirs {ms : List Settled} {cs : List Component} {q : Qmldir}
    (h : (ms.foldl addQmldir .empty).find? cs = some q) :
    q.directory.components = cs ∧ (∃ m ∈ ms, q.directory = m.directory ∧ q.uri = m.module.uri) ∧
      ∀ l, l ∈ q.lines.toList ↔ ∃ m ∈ ms, m.directory.components = cs ∧ l ∈ qmldirLines m := by
  induction ms using List.reverseRecOn generalizing q with
  | nil => exact absurd h (by simp [SortedMap.find?_empty])
  | append_singleton ms m ih =>
    rw [List.foldl_append, List.foldl_cons, List.foldl_nil, addQmldir_eq, SortedMap.find?_insert] at h
    have hmore : ∀ {P : Settled → Prop}, (∃ m' ∈ ms ++ [m], P m') ↔ (∃ m' ∈ ms, P m') ∨ P m := by
      intro P
      simp [or_and_right, exists_or]
    simp only [hmore]
    split at h
    next hcs =>
      subst hcs
      obtain rfl := Option.some.inj h
      simp only [SortedSet.mem_toList_insertAll, true_and]
      clear h
      cases hknown : (ms.foldl addQmldir .empty).find? m.directory.components with
      | none =>
        have hnot : ¬ ∃ m' ∈ ms, m'.directory.components = m.directory.components := by
          rintro ⟨m', hm', he⟩
          have hcontains := SortedMap.contains_eq_false.2 hknown
          rw [← he, contains_qmldirs.2 ⟨m', hm', rfl⟩] at hcontains
          exact absurd hcontains (by simp)
        refine ⟨rfl, .inr ⟨rfl, rfl⟩, fun l => ⟨fun hl => ?_, fun hl => ?_⟩⟩
        · rcases hl with hl | hl
          · exact .inr hl
          · exact absurd hl (by simp [SortedSet.toList, SortedMap.keys, SortedMap.empty])
        · rcases hl with ⟨m', hm', he, -⟩ | hl
          · exact absurd ⟨m', hm', he⟩ hnot
          · exact .inl hl
      | some known =>
        obtain ⟨hdir, hfrom, hlines⟩ := ih hknown
        refine ⟨hdir, .inl hfrom, fun l => ?_⟩
        rw [Option.getD_some, hlines, or_comm]
    next hcs =>
      obtain ⟨hdir, hfrom, hlines⟩ := ih h
      refine ⟨hdir, .inl hfrom, fun l => (hlines l).trans ⟨.inl, fun hl => ?_⟩⟩
      rcases hl with hl | ⟨he, -⟩
      · exact hl
      · exact absurd he.symm hcs

/-- The directories of the `qmldir` files are those of the modules. -/
theorem exists_of_mem_values {ms : List Settled} {q : Qmldir}
    (h : q ∈ (ms.foldl addQmldir .empty).values) : ∃ m ∈ ms, q.directory = m.directory := by
  obtain ⟨cs, hcs⟩ := SortedMap.mem_values.1 h
  obtain ⟨-, ⟨m, hm, hdir, -⟩, -⟩ := find?_qmldirs hcs
  exact ⟨m, hm, hdir⟩

/-! ## What is searched for -/

/-- **What a search of a refresh finds below the output directory.** -/
theorem run_globBelow (h : Ground w.tree s.outDir d) (htext : textError? s.outDir = none)
    (pattern : String) (last : List Char) {part : Glob.Part}
    (hpattern : pattern.toList = '*' :: '*' :: '/' :: last) (hlast : '/' ∉ last) (hne : last ≠ [])
    (hpart : Glob.part? last = some part) (hany : part ≠ .anyDepth) :
    ∃ paths, w.run (glob s.outDir pattern) = (.ok paths, w) ∧ paths.Nodup ∧
      ∀ r, r ∈ paths ↔ ∃ ns f, r = joins (Glob.spelled s.outDir) (ns ++ [f]) ∧
        Glob.IsFound w.tree s.outDir d part ns f := by
  obtain ⟨found, hfound, hnodup, hmem⟩ := Glob.exists_pathsBelow? h htext hlast hne hpart hany
  rw [← hpattern] at hfound
  refine ⟨_, run_glob hfound, ?_, fun r => List.mem_mergeSort.trans (hmem r)⟩
  exact (List.mergeSort_perm ..).nodup_iff.2 hnodup

/-- The part of the pattern for `qmldir` files. -/
def qmldirPart : Glob.Part := .literal "qmldir"

theorem part?_qmldir : Glob.part? "qmldir".toList = some qmldirPart := by decide

/-- The `qmldir` files that a refresh replaces. -/
theorem run_globQmldirs (h : Ground w.tree s.outDir d) (htext : textError? s.outDir = none) :
    ∃ paths, w.run (glob s.outDir "**/qmldir") = (.ok paths, w) ∧ paths.Nodup ∧
      ∀ r, r ∈ paths ↔ ∃ ns, r = joins (Glob.spelled s.outDir) (ns ++ ["qmldir"]) ∧
        Glob.IsFound w.tree s.outDir d qmldirPart ns "qmldir" := by
  obtain ⟨paths, hrun, hnodup, hmem⟩ := run_globBelow h htext "**/qmldir"
    "qmldir".toList (by decide) (by decide) (by decide) part?_qmldir (by simp [qmldirPart])
  refine ⟨paths, hrun, hnodup, fun r => (hmem r).trans ⟨?_, fun ⟨ns, hr, hf⟩ => ⟨ns, _, hr, hf⟩⟩⟩
  rintro ⟨ns, f, hr, hf⟩
  obtain rfl : "qmldir" = f := by simpa [Glob.Part.matchesName, qmldirPart] using hf.matched
  exact ⟨ns, hr, hf⟩

theorem ground_spelled (h : Ground t s.outDir d) : Ground t (Glob.spelled s.outDir) d :=
  h.of_coreSteps (Glob.isDirect_spelled h.direct) (Glob.isAbsolute_spelled h.direct)
    (Glob.coreSteps_spelled h.direct)

/-- Removing the `qmldir` files changes them alone, wherever it ends. -/
theorem change_removeQmldirs (h : Ground w.tree s.outDir d) (htext : textError? s.outDir = none) :
    ∃ paths, w.run (glob s.outDir "**/qmldir") = (.ok paths, w) ∧
      Change s.outDir d (IsQmldir d) w.tree
        (w.run (paths.forM fun p => edit (FileTree.removeFile p) .file)).2.tree := by
  obtain ⟨paths, hglob, -, hmem⟩ := run_globQmldirs h htext
  refine ⟨paths, hglob, change_forM h fun p hp x hx => ?_⟩
  obtain ⟨ns, rfl, hfound⟩ := (hmem p).1 hp
  have hnames := h.names hfound.isSome
  rw [tree_run_edit, joins_concat]
  have hchange := hx.change_editBy fun u => hx.change_withoutFile? (u := u) (ground_spelled hx)
    (fun n hn => (hnames n (List.mem_append_left _ hn)).1) QmlModule.isName_qmldir
  exact hchange.mono fun q hq => hq ▸ isQmldir_concat d _

/-- Replacing the `qmldir` files changes them alone, wherever it ends. -/
theorem change_replaceQmldirs (h : Ground w.tree s.outDir d) (htext : textError? s.outDir = none)
    {dirs : List Qmldir}
    (hdirs : ∀ q ∈ dirs, ∃ k : QmlModule, k.IsWellNamed ∧ q.directory = k.directoryIn s.outDir) :
    Change s.outDir d (IsQmldir d) w.tree (w.run (s.replaceQmldirs dirs)).2.tree := by
  obtain ⟨paths, hglob, hremoved⟩ := change_removeQmldirs h htext
  unfold replaceQmldirs
  rw [run_bind, hglob]
  refine keeps_bind (Change s.outDir d (IsQmldir d) w.tree) hremoved fun _ v _ hv => ?_
  refine hv.trans (change_forM hv.ground fun q hq x hx => ?_)
  obtain ⟨k, hk, hdir⟩ := hdirs q hq
  have hone := hx.change_write hk.isName QmlModule.isName_qmldir q.text.toUTF8
  rw [tree_run_edit, Qmldir.path, hdir, FileTree.writeText]
  exact hone.mono fun q hq => hq ▸ isQmldir_concat d _

/-! ## The modules that are looked at -/

/-- Below the output directory no types file lies in a directory whose name has an empty part
between its dots, at its start or at its end. -/
def HasPlainDots (t : FileTree) (d : Place) : Prop :=
  ∀ ns f, (t.at? (d ++ (ns ++ [f]))).isSome = true →
    (QmlModule.versionOfFileName? f).isSome = true →
    ∀ n ∈ ns, ∀ part ∈ Text.splitString '.' n, part ≠ ""

/-- No directory below a place has a dot in its name. -/
def HasUndottedDirectories (t : FileTree) (d : Place) : Prop :=
  ∀ ns n, t.isDirectoryAt (d ++ (ns ++ [n])) = true → '.' ∉ n.toList

/-- Only the entries have to be looked at. -/
theorem HasUndottedDirectories.of_entries
    (h : ∀ e ∈ t.entries.entries, t.isDirectoryAt e.1 = true → ∀ n ∈ e.1, '.' ∉ n.toList) :
    HasUndottedDirectories t d := by
  intro ns n hdir
  obtain ⟨time, htime⟩ := isDirectoryAt_iff.1 hdir
  unfold at? at htime
  rw [if_neg (by simp)] at htime
  exact h _ (SortedMap.mem_entries.2 htime) hdir n (by simp)

/-- A name without a dot has no part but itself. -/
theorem hasPlainDots_of_undotted {p : Path} (h : Ground t p d) (hdirs : HasUndottedDirectories t d) :
    HasPlainDots t d := by
  intro ns f hsome _ n hn part hpart
  obtain ⟨a, b, rfl⟩ := List.append_of_mem hn
  have hsplit : d ++ (a ++ n :: b ++ [f]) = d ++ (a ++ [n]) ++ (b ++ [f]) := by simp
  have hdir : t.isDirectoryAt (d ++ (a ++ [n])) = true :=
    h.above (by simp) (hsplit ▸ hsome)
  obtain ⟨e, he⟩ := Option.isSome_iff_exists.1 (hsplit ▸ hsome)
  have hname := (h.names (Option.isSome_iff_exists.2 ⟨e, by rwa [List.append_assoc] at he⟩) n
    (by simp)).1
  unfold Text.splitString at hpart
  rw [Text.split_eq_singleton (hdirs a n hdir)] at hpart
  obtain rfl := List.mem_singleton.1 hpart
  rw [String.ofList_toList]
  exact hname.ne_empty

/-- Changes below a site make no directory with a dot in its name. -/
theorem HasUndottedDirectories.of_change {touched : Place → Prop} {p : Path}
    (h : HasUndottedDirectories t d) (hc : Change p d touched t u) :
    HasUndottedDirectories u d := by
  intro ns n hdir
  rcases hc.made _ hdir with hold | ⟨ms, m, hq, hm, -⟩
  · exact h ns n hold
  · have hname := (List.append_inj' (List.append_cancel_left hq) rfl).2
    rwa [List.singleton_inj.1 hname]

/-- The part of the pattern for types files. -/
def typesPart : Glob.Part :=
  .names ("types".toList.map .char ++ .anyRow :: ".json".toList.map .char)

theorem part?_types : Glob.part? "types*.json".toList = some typesPart := by decide

theorem matchesName_typesFileName (k : QmlModule) :
    typesPart.matchesName k.typesFileName = true := by
  unfold typesPart Glob.Part.matchesName
  rw [k.toList_typesFileName]
  dsimp only
  have hend : Glob.tokensMatch (".json".toList.map .char ++ []) ".json".toList = true :=
    Glob.tokensMatch_chars.2 ⟨[], rfl, rfl⟩
  rw [List.append_nil] at hend
  exact Glob.tokensMatch_chars.2 ⟨_, rfl, Glob.anyEnd_iff.2 ⟨_, _, rfl, hend⟩⟩

/-- A module is listed: there is a file whose path is read as that of its types file. -/
def IsListed (t : FileTree) (p : Path) (d : Place) (k : QmlModule) : Prop :=
  ∃ ns f, Glob.IsFound t p d typesPart ns f ∧ ns ≠ [] ∧
    QmlModule.versionOfFileName? f = some (k.major, k.minor) ∧ k.uri = Text.joinStrings '.' ns

/-- A listed module has a name like those of its files' directories. -/
theorem IsListed.isWellNamed {p : Path} (h : IsListed t p d k) (hground : Ground t p d)
    (hdots : HasPlainDots t d) : k.IsWellNamed := by
  obtain ⟨ns, f, hfound, hne, hversion, huri⟩ := h
  have hnames := hground.names hfound.isSome
  have hwell := QmlModule.isWellNamed_joinStrings
    (fun n hn => (hnames n (List.mem_append_left _ hn)).1)
    (hdots ns f hfound.isSome (by rw [hversion]; rfl)) hne k.major k.minor
  rwa [← huri] at hwell

/-- An entry is found if the path of any name beside it can be used. -/
theorem isFound_of_textError? {p : Path} (h : Ground t p d) {part : Glob.Part} {ns : List String}
    {f n : String} (hn : IsName n) (hsome : (t.at? (d ++ (ns ++ [f]))).isSome = true)
    (hmatch : part.matchesName f = true) (ht : textError? (joins p (ns ++ [n])) = none) :
    Glob.IsFound t p d part ns f := by
  have hns : ∀ m ∈ ns, IsName m := fun m hm =>
    (h.names hsome m (List.mem_append_left _ hm)).1
  have hlast : ∀ m ∈ [n], IsName m := fun m hm => List.mem_singleton.1 hm ▸ hn
  have hall : ∀ m ∈ ns ++ [n], IsName m := fun m hm =>
    (List.mem_append.1 hm).elim (hns m) (hlast m)
  have hspelled := Glob.textError?_joins_spelled h.direct (by simp) hall ht
  rw [joins_append] at hspelled
  exact ⟨hsome, hmatch,
    textError?_of_joins (isDirect_joins (Glob.isDirect_spelled h.direct) hns) hlast hspelled⟩

/-- A types file that is there lists its module. -/
theorem isListed_of_isSome (h : Ground t s.outDir d)
    (hsome : (t.at? (d ++ k.typesNames)).isSome = true)
    (htext : textError? (s.typesPath k) = none) : IsListed t s.outDir d k := by
  rw [typesPath_eq] at htext
  exact ⟨k.parts, k.typesFileName,
    isFound_of_textError? h k.isName_typesFileName hsome (matchesName_typesFileName k) htext,
    k.parts_ne_nil, k.versionOfFileName?_typesFileName, k.joinStrings_parts.symm⟩

/-- A module that is not listed has no entries. -/
theorem entriesOf_eq_nil (h : Ground t s.outDir d) (hk : k.IsWellNamed)
    (hnot : ¬ IsListed t s.outDir d k) : s.entriesOf t k = [] := by
  by_contra hne
  have htext := textError?_typesPath hne
  rw [entriesOf_eq h hk, if_pos htext] at hne
  refine hnot (isListed_of_isSome h ?_ htext)
  cases he : t.at? (d ++ k.typesNames) with
  | some e => rfl
  | none => exact absurd (typesAt_of_none he) hne

/-- **The modules that are looked at are those with registrations and the listed ones**, once and in
order. -/
theorem run_modules (h : Ground w.tree s.outDir d) (htext : textError? s.outDir = none)
    (fresh : Fresh) :
    ∃ ks, w.run (s.modules fresh) = (.ok ks, w) ∧ ks.Pairwise (fun a b => compare a b = .lt) ∧
      ∀ k, k ∈ ks ↔ fresh.contains k = true ∨ IsListed w.tree s.outDir d k := by
  obtain ⟨paths, hglob, -, hmem⟩ := run_globBelow h htext "**/types*.json"
    "types*.json".toList (by decide) (by decide) (by decide) part?_types (by simp [typesPart])
  have hrun : w.run (s.modules fresh) = (.ok (SortedSet.insertAll (SortedSet.ofList fresh.keys)
      (paths.filterMap (QmlModule.ofTypesPath? s.outDir))).toList, w) := by
    unfold modules
    rw [run_bind, hglob]
    rfl
  refine ⟨_, hrun, SortedMap.keys_pairwise _, fun k => ?_⟩
  have hcs : (Glob.spelled s.outDir).components = s.outDir.components :=
    Glob.components_spelled h.direct
  have hof : ∀ ns f, Glob.IsFound w.tree s.outDir d typesPart ns f →
      (QmlModule.ofTypesPath? s.outDir (joins (Glob.spelled s.outDir) (ns ++ [f])) = some k ↔
        ns ≠ [] ∧ QmlModule.versionOfFileName? f = some (k.major, k.minor) ∧
          k.uri = Text.joinStrings '.' ns) := by
    intro ns f hfound
    have hnames := h.names hfound.isSome
    exact QmlModule.ofTypesPath?_joins hcs (fun n hn => (hnames n (List.mem_append_left _ hn)).1)
      (hnames f (by simp)).1
  rw [SortedSet.mem_toList_insertAll, SortedSet.mem_toList_ofList, SortedMap.mem_keys,
    List.mem_filterMap, or_comm]
  refine or_congr_right ⟨?_, ?_⟩
  · rintro ⟨r, hr, hk⟩
    obtain ⟨ns, f, rfl, hfound⟩ := (hmem r).1 hr
    exact ⟨ns, f, hfound, (hof ns f hfound).1 hk⟩
  · rintro ⟨ns, f, hfound, hk⟩
    exact ⟨_, (hmem _).2 ⟨ns, f, rfl, hfound⟩, (hof ns f hfound).2 hk⟩

/-! ## The refresh -/

/-- The source files whose former entries count. -/
def cleanFiles (files stale : PathSet) : PathSet := files.filter fun p _ => !stale.contains p

theorem merge_nil : merge t base clean [] [] = [] := by
  unfold merge
  simp

/-- What the first phase of a refresh comes to. -/
structure SettledTypes (s : Stubs) (d : Place) (registrations : List Registration)
    (files stale : PathSet) (t u : FileTree) (ms : List Settled) : Prop where
  change : Change s.outDir d (fun q => ∃ m ∈ ms, TouchedBy d m.module q) t u
  sorted : ms.Pairwise fun a b => compare a.module b.module = .lt
  wellNamed : ∀ m ∈ ms, m.module.IsWellNamed
  settled : ∀ m ∈ ms, Settles s d (s.base t) files (cleanFiles files stale)
    (s.freshOf (s.base t) registrations) t u m
  listed : ∀ k, IsListed t s.outDir d k → ∃ m ∈ ms, m.module = k
  others : ∀ k, k.IsWellNamed → k ∉ ms.map (·.module) →
    s.entriesOf t k = [] ∧ s.entriesOf u k = [] ∧ s.freshOf (s.base t) registrations k = []

section Settled

variable {registrations : List Registration} {ms : List Settled} {m : Settled}

theorem SettledTypes.named (h : SettledTypes s d registrations files stale t u ms) (hm : m ∈ ms) :
    m.module.IsWellNamed ∧ m.directory = m.module.directoryIn s.outDir :=
  ⟨h.wellNamed m hm, (h.settled m hm).directory⟩

theorem SettledTypes.entries (h : SettledTypes s d registrations files stale t u ms) (hm : m ∈ ms) :
    s.entriesOf u m.module = m.entries := (h.settled m hm).entries

theorem SettledTypes.changed (h : SettledTypes s d registrations files stale t u ms) (hm : m ∈ ms) :
    m.changed = true ↔ m.entries ≠ [] ∧ m.entries ≠ s.entriesOf t m.module :=
  (h.settled m hm).changed

/-- No module is settled twice. -/
theorem SettledTypes.nodup (h : SettledTypes s d registrations files stale t u ms) :
    (ms.map (·.module)).Nodup :=
  List.pairwise_map.2 (h.sorted.imp fun {a b} hlt he => by
    rw [he] at hlt
    exact absurd hlt (by simp))

end Settled

/-- Grouping either fails or gives the registrations, and changes nothing. -/
theorem of_run_group {base : Path} {registrations : List Registration} {fresh : Fresh}
    (h : w.run (liftM (m := Except RefreshError) (s.group base registrations) : Refresh Fresh) =
      (.ok fresh, w')) : s.group base registrations = .ok fresh ∧ w' = w := by
  cases hg : s.group base registrations with
  | error e =>
    rw [hg] at h
    exact absurd (Prod.mk.inj h).1 (by simp)
  | ok f =>
    rw [hg] at h
    obtain ⟨hok, hw⟩ := Prod.mk.inj h
    exact ⟨by rw [Except.ok.inj hok], hw.symm⟩

/-- **After the first phase the types files have their final content.** -/
theorem of_run_settleAll (h : Ground w.tree s.outDir d) (htext : textError? s.outDir = none)
    (hdots : HasPlainDots w.tree d) {registrations : List Registration}
    (hregs : ∀ r ∈ registrations, r.module.IsWellNamed) {metatypes : List Path}
    {ms : List Settled}
    (hrun : w.run (s.settleAll registrations files stale) = (.ok (metatypes, ms), w')) :
    SettledTypes s d registrations files stale w.tree w'.tree ms := by
  unfold settleAll at hrun
  have hrun := ok_of_run_get hrun
  dsimp only at hrun
  obtain ⟨fresh, v, hgroup, hrun⟩ := ok_of_run_bind hrun
  obtain ⟨hgroup, rfl⟩ := of_run_group hgroup
  have hfind := find?_group hgroup
  obtain ⟨ks, x, hmodules, hrun⟩ := ok_of_run_bind hrun
  obtain ⟨ks', hmodules', hsorted, hmem⟩ := run_modules h htext fresh
  rw [hmodules'] at hmodules
  obtain ⟨hks, rfl⟩ := Prod.mk.inj hmodules
  obtain rfl : ks' = ks := Except.ok.inj hks
  have hnodup : ks'.Nodup := hsorted.imp fun {a b} hlt he => by
    rw [he] at hlt
    exact absurd hlt (by simp)
  have hnamed : ∀ k ∈ ks', k.IsWellNamed := by
    intro k hk
    rcases (hmem k).1 hk with hfresh | hlisted
    · obtain ⟨r, hr, rfl⟩ := (hfind k).2.1 hfresh
      exact hregs r hr
    · exact hlisted.isWellNamed h hdots
  obtain ⟨paths, x', hglob, hrun⟩ := ok_of_run_bind hrun
  obtain ⟨rfl, -⟩ := of_run_glob hglob
  obtain ⟨settled, y, hsettle, hrun⟩ := ok_of_run_bind hrun
  obtain ⟨hpair, rfl⟩ := eq_of_run_pure hrun
  obtain ⟨rfl, rfl⟩ := Prod.mk.inj hpair
  have hall := of_run_mapM_settle hnodup hnamed h hsettle
  have hfresh := funext fun k => (hfind k).1
  rw [hfresh] at hall
  have hmodule : ∀ k, k ∈ ks' ↔ ∃ m ∈ settled, m.module = k := fun k => by
    rw [← hall.modules, List.mem_map]
  refine ⟨hall.change.mono fun q ⟨k, hk, hq⟩ => ?_, ?_, fun m hm => ?_, hall.settled,
    fun k hk => (hmodule k).1 ((hmem k).2 (.inr hk)), fun k hk hnot => ?_⟩
  · obtain ⟨m, hm, rfl⟩ := (hmodule k).1 hk
    exact ⟨m, hm, hq⟩
  · rw [← hall.modules, List.pairwise_map] at hsorted
    exact hsorted
  · exact hnamed _ ((hmodule _).2 ⟨m, hm, rfl⟩)
  · rw [hall.modules] at hnot
    have hnone : fresh.find? k = none := by
      rw [← SortedMap.contains_eq_false, ← Bool.not_eq_true]
      exact fun hc => hnot ((hmem k).2 (.inl hc))
    have hempty := entriesOf_eq_nil h hk fun hlisted => hnot ((hmem k).2 (.inr hlisted))
    have hfreshk := (hfind k).1
    rw [hnone] at hfreshk
    refine ⟨hempty, (entriesOf_change h hall.change hk ?_).trans hempty, hfreshk.symm⟩
    rintro ⟨k', hk', hq⟩
    exact hnot ((touchedBy_typesNames d k).unique hq ▸ hk')

/-- The `qmldir` files that a refresh writes for the settled modules. -/
def qmldirsOf (ms : List Settled) : List Qmldir := ((keptOf ms).foldl addQmldir .empty).values

/-- The `qmldir` files lie in the directories of the settled modules. -/
theorem SettledTypes.exists_of_mem_qmldirs {registrations : List Registration} {ms : List Settled}
    (h : SettledTypes s d registrations files stale t u ms) :
    ∀ q ∈ qmldirsOf ms, ∃ k : QmlModule, k.IsWellNamed ∧ q.directory = k.directoryIn s.outDir := by
  intro q hq
  obtain ⟨m, hm, hdir⟩ := exists_of_mem_values hq
  obtain ⟨hk, hmdir⟩ := h.named (List.mem_filter.1 hm).1
  exact ⟨m.module, hk, hdir.trans hmdir⟩

/-- What a refresh reports of the settled modules. -/
def reportOf (ms : List Settled) : RefreshReport where
  regenerated := (changedOf ms).map (·.module)
  removed := (ms.filter fun m => m.entries.isEmpty).map (·.module)
  unchanged := ((keptOf ms).filter fun m => !m.changed).map (·.module)
  qmldirs := (qmldirsOf ms).map (·.path)

/-- The phases of a refresh. -/
theorem refresh_eq (registrations : List Registration) (files stale : PathSet) :
    s.refresh registrations files stale = (do
      let (metatypes, ms) ← s.settleAll registrations files stale
      (changedOf ms).forM (s.generate (foreignTypes metatypes ms))
      s.replaceQmldirs (qmldirsOf ms)
      return reportOf ms) := rfl

/-- A refresh that succeeds has gone through all its phases. -/
theorem of_run_refresh {registrations : List Registration} {report : RefreshReport}
    (hrun : w.run (s.refresh registrations files stale) = (.ok report, w')) :
    ∃ metatypes ms v x, w.run (s.settleAll registrations files stale) = (.ok (metatypes, ms), v) ∧
      v.run ((changedOf ms).forM (s.generate (foreignTypes metatypes ms))) = (.ok (), x) ∧
      x.run (s.replaceQmldirs (qmldirsOf ms)) = (.ok (), w') ∧ report = reportOf ms := by
  rw [refresh_eq] at hrun
  obtain ⟨⟨metatypes, ms⟩, v, hsettle, hrun⟩ := ok_of_run_bind hrun
  obtain ⟨_, x, hgenerate, hrun⟩ := ok_of_run_bind hrun
  obtain ⟨_, x', hreplace, hrun⟩ := ok_of_run_bind hrun
  obtain ⟨rfl, rfl⟩ := eq_of_run_pure hrun
  exact ⟨metatypes, ms, v, x, hsettle, hgenerate, hreplace, rfl⟩

/-- Running the registrar for settled modules changes files beside their types files, wherever it
ends. -/
theorem change_forM_generate (hlaw : s.registrar.OnlyWritesOutputs) (h : Ground w.tree s.outDir d)
    {foreign : List Path} {ms : List Settled}
    (hms : ∀ m ∈ ms, m.module.IsWellNamed ∧ m.directory = m.module.directoryIn s.outDir) :
    Change s.outDir d (fun q => ∃ m ∈ ms, IsBeside d m.module q) w.tree
      (w.run (ms.forM (s.generate foreign))).2.tree :=
  change_forM h fun m hm _ hv =>
    (change_generate hlaw hv (hms m hm).1 (hms m hm).2).mono fun _ hq => ⟨m, hm, hq⟩

/-- **What comes after the first phase changes no types file**, wherever the refresh ends. -/
theorem change_of_settled (hlaw : s.registrar.OnlyWritesOutputs) (htext : textError? s.outDir = none)
    {registrations : List Registration} {metatypes : List Path} {ms : List Settled} {v : Workbench}
    (hsettle : w.run (s.settleAll registrations files stale) = (.ok (metatypes, ms), v))
    (hsettled : SettledTypes s d registrations files stale w.tree v.tree ms) :
    Change s.outDir d IsOther v.tree (w.run (s.refresh registrations files stale)).2.tree := by
  have hgenerated : Change s.outDir d IsOther v.tree
      (v.run ((changedOf ms).forM (s.generate (foreignTypes metatypes ms)))).2.tree :=
    (change_forM_generate hlaw hsettled.change.ground
      fun m hm => hsettled.named (List.mem_filter.1 (List.mem_filter.1 hm).1).1).mono
        fun _ ⟨_, _, hq⟩ => hq.isOther
  rw [refresh_eq, run_bind, hsettle]
  refine keeps_bind (Change s.outDir d IsOther v.tree) hgenerated fun _ x _ hx => ?_
  refine keeps_bind (Change s.outDir d IsOther v.tree) (hx.trans ?_) fun _ _ _ hy => hy
  exact (change_replaceQmldirs hx.ground htext hsettled.exists_of_mem_qmldirs).mono
    fun _ => IsQmldir.isOther

/-- **What a refresh leaves.** The types files keep what the first phase gave them. -/
theorem settledTypes_refresh (h : Ground w.tree s.outDir d) (htext : textError? s.outDir = none)
    (hlaw : s.registrar.OnlyWritesOutputs) (hdots : HasPlainDots w.tree d)
    {registrations : List Registration} (hregs : ∀ r ∈ registrations, r.module.IsWellNamed)
    {report : RefreshReport}
    (hrun : w.run (s.refresh registrations files stale) = (.ok report, w')) :
    ∃ metatypes ms v x, w.run (s.settleAll registrations files stale) = (.ok (metatypes, ms), v) ∧
      v.run ((changedOf ms).forM (s.generate (foreignTypes metatypes ms))) = (.ok (), x) ∧
      x.run (s.replaceQmldirs (qmldirsOf ms)) = (.ok (), w') ∧ report = reportOf ms ∧
      SettledTypes s d registrations files stale w.tree v.tree ms ∧
      Change s.outDir d IsOther v.tree w'.tree := by
  obtain ⟨metatypes, ms, v, x, hsettle, hgenerate, hreplace, hreport⟩ := of_run_refresh hrun
  have hsettled := of_run_settleAll h htext hdots hregs hsettle
  have hrest := change_of_settled hlaw htext hsettle hsettled
  rw [hrun] at hrest
  exact ⟨metatypes, ms, v, x, hsettle, hgenerate, hreplace, hreport, hsettled, hrest⟩

/-- **What a refresh leaves of a types file.** -/
theorem entriesOf_refresh (h : Ground w.tree s.outDir d) (htext : textError? s.outDir = none)
    (hlaw : s.registrar.OnlyWritesOutputs) (hdots : HasPlainDots w.tree d)
    {registrations : List Registration} (hregs : ∀ r ∈ registrations, r.module.IsWellNamed)
    {report : RefreshReport}
    (hrun : w.run (s.refresh registrations files stale) = (.ok report, w')) :
    Ground w'.tree s.outDir d ∧ Within d w.tree w'.tree ∧
      ∀ k, k.IsWellNamed → ∃ v, Within d w.tree v ∧
        s.entriesOf w'.tree k = merge v (s.base w.tree) (cleanFiles files stale)
          (s.entriesOf w.tree k) (s.freshOf (s.base w.tree) registrations k) ∧
        ∀ e ∈ s.entriesOf w'.tree k, files.has (e.resolvedInput v (s.base w.tree)) = true := by
  obtain ⟨metatypes, ms, v, x, -, -, -, -, hsettled, hrest⟩ :=
    settledTypes_refresh h htext hlaw hdots hregs hrun
  have hafter : ∀ k, k.IsWellNamed → s.entriesOf w'.tree k = s.entriesOf v.tree k := fun k hk =>
    entriesOf_change hsettled.change.ground hrest hk not_isOther
  refine ⟨hrest.ground, hsettled.change.within.trans hrest.within, fun k hk => ?_⟩
  by_cases hmem : k ∈ ms.map (·.module)
  · obtain ⟨m, hm, rfl⟩ := List.mem_map.1 hmem
    obtain ⟨y, hy, -, hmerge, hfiles⟩ := (hsettled.settled m hm).merged
    rw [hafter _ hk, hsettled.entries hm]
    exact ⟨y, hy.within, hmerge, hfiles⟩
  · obtain ⟨hbefore, hstill, hnone⟩ := hsettled.others k hk hmem
    rw [hafter k hk, hstill, hbefore, hnone]
    exact ⟨_, Within.refl d _, merge_nil.symm, nofun⟩

/-! ## A small output directory -/

theorem isWellNamed_u : (⟨"u", 1, 0⟩ : QmlModule).IsWellNamed := by
  unfold QmlModule.IsWellNamed
  decide

/-- An entry without classes of a file. -/
def plainEntry (inputFile : String) : TypesEntry := ⟨[], 1, 1, 0, [], [], inputFile⟩

/-- Stubs in the directory `/o`, with a registrar that writes its two files. -/
def plainStubs : Stubs := ⟨⟨"/o"⟩, ⟨"/m"⟩, ⟨⟨"/r"⟩, [], Registrar.scripted none⟩, none⟩

end Stubs

end QmlStubs
