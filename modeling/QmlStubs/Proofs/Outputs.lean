import QmlStubs.Proofs.Qmldirs

/-!
# The files that a refresh leaves

The phases of a refresh touch different files: settling those of the modules, the registrar those
beside the types files it is run for, and the last phase the `qmldir` files. So what each of them
leaves is there in the end (`Stubs.leaves_of_run_refresh`):

> **a module without entries has no files, one with entries has them in its types file, and the
> `qmldir` files are those of the directories of modules with entries.**
-/

set_option autoImplicit false

namespace QmlStubs

open FileTree

namespace Stubs

open Workbench

variable {s : Stubs} {w w' : Workbench} {t u v x : FileTree} {d q : Place} {k : QmlModule}
variable {files stale : PathSet} {registrations : List Registration} {m : Settled} {ms : List Settled}

/-- A place of a file that a refresh may write or remove. -/
def IsOutput (d q : Place) : Prop := IsModuleFile d q ∨ IsQmldir d q

/-- Every output lies below the output directory. -/
theorem IsOutput.isBelow (h : IsOutput d q) : ∃ ns, ns ≠ [] ∧ q = d ++ ns := by
  rcases h with ⟨k, hk⟩ | ⟨ns, rfl⟩
  · exact hk.isBelow
  · exact ⟨ns ++ ["qmldir"], by simp, rfl⟩

/-! ## The `qmldir` files of the settled modules -/

/-- No two `qmldir` files lie in one directory. -/
theorem pairwise_qmldirsOf (ms : List Settled) :
    (qmldirsOf ms).Pairwise fun q q' => q.directory ≠ q'.directory := by
  have hkey : ∀ e ∈ ((keptOf ms).foldl addQmldir .empty).entries, e.2.directory.components = e.1 :=
    fun e he => (find?_qmldirs (SortedMap.mem_entries.1 he)).1
  refine List.pairwise_map.2 (List.Pairwise.imp_of_mem ?_ (SortedMap.increasing _))
  intro a b ha hb hlt hsame
  have hcomponents := congrArg Path.components hsame
  rw [hkey a ha, hkey b hb] at hcomponents
  have hlt : compare a.1 b.1 = .lt := hlt
  rw [hcomponents] at hlt
  exact absurd hlt (by simp)

/-- What a `qmldir` file comes from. -/
theorem of_mem_qmldirsOf {q : Qmldir} (h : q ∈ qmldirsOf ms) :
    (∃ m ∈ keptOf ms, q.directory = m.directory ∧ q.uri = m.module.uri) ∧
      ∀ l, l ∈ q.lines.toList ↔
        ∃ m ∈ keptOf ms, m.directory.components = q.directory.components ∧ l ∈ qmldirLines m := by
  obtain ⟨cs, hcs⟩ := SortedMap.mem_values.1 h
  obtain ⟨hdir, hfrom, hlines⟩ := find?_qmldirs hcs
  rw [hdir]
  exact ⟨hfrom, hlines⟩

/-- Every module with entries has a `qmldir` file in its directory. -/
theorem exists_mem_qmldirsOf (hm : m ∈ keptOf ms) :
    ∃ q ∈ qmldirsOf ms, q.directory.components = m.directory.components := by
  have hcontains := contains_qmldirs.2 ⟨m, hm, rfl⟩
  obtain ⟨q, hq⟩ := SortedMap.contains_iff.1 hcontains
  exact ⟨q, SortedMap.mem_values.2 ⟨_, hq⟩, (find?_qmldirs hq).1⟩

theorem mem_keptOf : m ∈ keptOf ms ↔ m ∈ ms ∧ m.entries ≠ [] := by
  unfold keptOf
  rw [List.mem_filter]
  simp

theorem mem_changedOf : m ∈ changedOf ms ↔ m ∈ ms ∧ m.entries ≠ [] ∧ m.changed = true := by
  unfold changedOf
  rw [List.mem_filter, mem_keptOf, and_assoc]

/-- The `qmldir` files lie in the directories of the modules with entries. -/
theorem SettledTypes.isQmldirBelow (h : SettledTypes s d registrations files stale t u ms)
    {q : Qmldir} (hq : q ∈ qmldirsOf ms) :
    ∃ m ∈ keptOf ms, q.uri = m.module.uri ∧ IsQmldirBelow s.outDir m.module.parts q := by
  obtain ⟨⟨m, hm, hdir, huri⟩, -⟩ := of_mem_qmldirsOf hq
  obtain ⟨hk, hmdir⟩ := h.named (mem_keptOf.1 hm).1
  exact ⟨m, hm, huri, hk.isName, hdir.trans hmdir⟩

/-- **Every module with entries has a `qmldir` file**, which has the lines of all modules with its
name. -/
theorem SettledTypes.exists_mem_qmldirsOf (h : SettledTypes s d registrations files stale t u ms)
    (hm : m ∈ keptOf ms) : ∃ q ∈ qmldirsOf ms, q.uri = m.module.uri ∧
      IsQmldirBelow s.outDir m.module.parts q ∧
      ∀ l, l ∈ q.lines.toList ↔
        ∃ m' ∈ keptOf ms, m'.module.uri = m.module.uri ∧ l ∈ qmldirLines m' := by
  have hnamed : ∀ m' ∈ keptOf ms, (∀ n ∈ m'.module.parts, IsName n) ∧
      m'.directory = joins s.outDir m'.module.parts := fun m' hm' =>
    have hnamed := h.named (mem_keptOf.1 hm').1
    ⟨hnamed.1.isName, hnamed.2⟩
  -- Directories with the same components are those of modules with the same name.
  have huri : ∀ m' ∈ keptOf ms, m'.directory.components = m.directory.components →
      m'.module.uri = m.module.uri := by
    intro m' hm' hsame
    rw [(hnamed m' hm').2, (hnamed m hm).2] at hsame
    have hparts := Glob.components_joins_injective (hnamed m' hm').1 (hnamed m hm).1 hsame
    rw [← m'.module.joinStrings_parts, hparts, m.module.joinStrings_parts]
  obtain ⟨q, hq, hcomponents⟩ := Stubs.exists_mem_qmldirsOf hm
  obtain ⟨⟨m', hm', hdir, huri'⟩, hlines⟩ := of_mem_qmldirsOf hq
  have hsame := huri m' hm' (hdir ▸ hcomponents)
  refine ⟨q, hq, huri'.trans hsame, ⟨(hnamed m hm).1, ?_⟩, fun l => (hlines l).trans ?_⟩
  · rw [hdir, (hnamed m' hm').2]
    unfold QmlModule.parts
    rw [hsame]
  · refine exists_congr fun m' => and_congr_right fun hm' => and_congr_left fun _ => ?_
    rw [hcomponents]
    refine ⟨huri m' hm', fun he => ?_⟩
    rw [(hnamed m' hm').2, (hnamed m hm).2]
    unfold QmlModule.parts
    rw [he]

/-- **The last phase replaces the `qmldir` files by those of the modules with entries.** -/
theorem SettledTypes.replaces (h : SettledTypes s d registrations files stale t u ms)
    (hground : Ground w.tree s.outDir d) (htext : textError? s.outDir = none)
    (hrun : w.run (s.replaceQmldirs (qmldirsOf ms)) = (.ok (), w')) :
    Replaces s d (qmldirsOf ms) w.tree w'.tree := by
  refine of_run_replaceQmldirs hground htext (fun q hq => ?_) (pairwise_qmldirsOf ms) hrun
  obtain ⟨m, -, -, hbelow⟩ := h.isQmldirBelow hq
  exact ⟨m.module.parts, hbelow⟩

/-! ## Place by place -/

/-- What a refresh leaves of the modules that it settles. -/
structure Leaves (s : Stubs) (d : Place) (ms : List Settled) (t u : FileTree) : Prop where
  change : Change s.outDir d (fun q => (∃ m ∈ ms, TouchedBy d m.module q) ∨ IsQmldir d q) t u
  entries : ∀ m ∈ ms, s.entriesOf u m.module = m.entries
  made : ∀ m ∈ ms, textError? (joins s.outDir m.module.parts) = none ∧
    u.isDirectoryAt (d ++ m.module.parts) = true
  gone : ∀ m ∈ ms, m.entries = [] → ∀ n ∈ m.module.fileNames,
    Fits (joins s.outDir m.module.parts) n ∧ u.at? (d ++ (m.module.parts ++ [n])) = none
  beside : ∀ m ∈ ms, m.entries ≠ [] → m.changed = false → ∀ n ∈ m.module.otherNames,
    u.at? (d ++ (m.module.parts ++ [n])) = t.at? (d ++ (m.module.parts ++ [n]))
  replaced : ∃ x, Change s.outDir d (fun q => ∃ m ∈ ms, TouchedBy d m.module q) t x ∧
    Replaces s d (qmldirsOf ms) x u

/-- **The later phases leave what is settled**, except for the files beside the types files of
changed modules. -/
theorem SettledTypes.leaves (h : SettledTypes s d registrations files stale t v ms)
    (hgenerated : Change s.outDir d (fun q => ∃ m ∈ changedOf ms, IsBeside d m.module q) v x)
    (hreplaced : Replaces s d (qmldirsOf ms) x u) : Leaves s d ms t u := by
  have hsame : ∀ m ∈ ms, ∀ n ∈ m.module.fileNames, m ∉ changedOf ms ∨ n = m.module.typesFileName →
      u.at? (d ++ (m.module.parts ++ [n])) = v.at? (d ++ (m.module.parts ++ [n])) := by
    intro m hm n hn hcase
    have hq : TouchedBy d m.module (d ++ (m.module.parts ++ [n])) := ⟨n, hn, rfl⟩
    refine (hreplaced.change.at?_eq hq.not_isQmldir hq.not_isMade).trans
      (hgenerated.at?_eq ?_ hq.not_isMade)
    rintro ⟨m', hm', hbeside⟩
    have hmodule := hq.unique hbeside.touchedBy
    have hmem := (mem_changedOf.1 hm').1
    obtain rfl := List.inj_on_of_nodup_map h.nodup hm hmem hmodule
    rcases hcase with hnot | rfl
    · exact hnot hm'
    · obtain ⟨n, hother, he⟩ := hbeside
      have hname := (List.append_inj' (List.append_cancel_left he) rfl).2
      exact QmlModule.ne_typesFileName_of_mem_otherNames hother _ (List.singleton_inj.1 hname).symm
  have hgenerated' : Change s.outDir d (fun q => ∃ m ∈ ms, TouchedBy d m.module q) v x :=
    hgenerated.mono fun q ⟨m, hm, hq⟩ => ⟨m, (mem_changedOf.1 hm).1, hq.touchedBy⟩
  have hfirst := h.change.trans hgenerated'
  have hrest : Change s.outDir d IsOther v u :=
    (hgenerated.mono fun q ⟨m, _, hq⟩ => hq.isOther).trans
      (hreplaced.change.mono fun q hq => hq.isOther)
  refine ⟨(hfirst.mono fun q hq => .inl hq).trans (hreplaced.change.mono fun q hq => .inr hq),
    fun m hm => ?_, fun m hm => ?_, fun m hm hnil n hn => ?_, fun m hm hne hold n hn => ?_,
    x, hfirst, hreplaced⟩
  · rw [entriesOf_change h.change.ground hrest (h.wellNamed m hm) not_isOther, h.entries hm]
  · exact ⟨(h.settled m hm).made.1, hrest.isDirectoryAt (h.settled m hm).made.2⟩
  · obtain ⟨hfits, hnone⟩ := (h.settled m hm).gone hnil n hn
    rw [hsame m hm n hn (.inl fun hc => (mem_changedOf.1 hc).2.1 hnil)]
    exact ⟨hfits, hnone⟩
  · rw [hsame m hm n (List.mem_cons_of_mem _ hn)
      (.inl fun hc => absurd (hold.symm.trans (mem_changedOf.1 hc).2.2) (by simp))]
    exact (h.settled m hm).beside hne n hn

/-- **Only settled modules are listed after a refresh.** -/
theorem Leaves.exists_of_isListed (h : Leaves s d ms t u)
    (hsettled : SettledTypes s d registrations files stale t v ms)
    (hk : IsListed u s.outDir d k) : ∃ m ∈ ms, m.module = k := by
  obtain ⟨ns, f, hfound, hne, hversion, huri⟩ := hk
  obtain ⟨cs, hcs⟩ := QmlModule.toList_of_versionOfFileName? hversion
  have hdot : '.' ∈ f.toList := by
    rw [hcs]
    simp
  by_cases hold : ∃ m ∈ ms, TouchedBy d m.module (d ++ (ns ++ [f]))
  · obtain ⟨m, hm, n, hn, hq⟩ := hold
    obtain ⟨rfl, hname⟩ := List.append_inj' (List.append_cancel_left hq) rfl
    obtain rfl := List.singleton_inj.1 hname
    refine ⟨m, hm, ?_⟩
    rw [QmlModule.eq_typesFileName_of_versionOfFileName? hn hversion,
      QmlModule.versionOfFileName?_typesFileName] at hversion
    rw [QmlModule.joinStrings_parts] at huri
    obtain ⟨uri, major, minor⟩ := k
    obtain ⟨hmajor, hminor⟩ := Prod.mk.inj (Option.some.inj hversion)
    cases huri
    cases hmajor
    cases hminor
    rfl
  · refine hsettled.listed k ⟨ns, f, ⟨?_, hfound.matched, hfound.text⟩, hne, hversion, huri⟩
    rw [← h.change.at?_eq ?_ (not_isMade hdot)]
    · exact hfound.isSome
    · rintro (htouched | ⟨ms, hq⟩)
      · exact hold htouched
      · have hname := (List.append_inj' (List.append_cancel_left hq) rfl).2
        rw [List.singleton_inj.1 hname] at hdot
        exact absurd hdot (by decide)

/-- **The modules with entries are those that were settled with some.** -/
theorem Leaves.exists_mem_keptOf (h : Leaves s d ms t u)
    (hsettled : SettledTypes s d registrations files stale t v ms) :
    (∃ m ∈ keptOf ms, m.module = k) ↔ k.IsWellNamed ∧ s.entriesOf u k ≠ [] := by
  constructor
  · rintro ⟨m, hm, rfl⟩
    obtain ⟨hm, hne⟩ := mem_keptOf.1 hm
    exact ⟨hsettled.wellNamed m hm, h.entries m hm ▸ hne⟩
  · rintro ⟨hk, hne⟩
    have hlisted : IsListed u s.outDir d k := by
      by_contra hnot
      exact hne (entriesOf_eq_nil h.change.ground hk hnot)
    obtain ⟨m, hm, rfl⟩ := h.exists_of_isListed hsettled hlisted
    rw [h.entries m hm] at hne
    exact ⟨m, mem_keptOf.2 ⟨hm, hne⟩, rfl⟩

/-- The entries of a module are told by the bytes of its types file. -/
theorem entriesOf_of_contentAt?_eq (h : Ground t s.outDir d)
    (h' : Ground u s.outDir d) (hk : k.IsWellNamed)
    (hsame : u.contentAt? (d ++ k.typesNames) = t.contentAt? (d ++ k.typesNames)) :
    s.entriesOf u k = s.entriesOf t k := by
  rw [entriesOf_eq h hk, entriesOf_eq h' hk, typesAt_eq, typesAt_eq, hsame]

/-- **What a refresh leaves.** -/
theorem leaves_of_run_refresh (h : Ground w.tree s.outDir d) (htext : textError? s.outDir = none)
    (hlaw : s.registrar.OnlyWritesOutputs) (hdots : HasPlainDots w.tree d)
    (hregs : ∀ r ∈ registrations, r.module.IsWellNamed) {report : RefreshReport}
    (hrun : w.run (s.refresh registrations files stale) = (.ok report, w')) :
    ∃ metatypes ms v x, w.run (s.settleAll registrations files stale) = (.ok (metatypes, ms), v) ∧
      v.run ((changedOf ms).forM (s.generate (foreignTypes metatypes ms))) = (.ok (), x) ∧
      report = reportOf ms ∧ SettledTypes s d registrations files stale w.tree v.tree ms ∧
      Leaves s d ms w.tree w'.tree ∧ Change s.outDir d (IsOutput d) v.tree w'.tree ∧
      Change s.outDir d (IsQmldir d) x.tree w'.tree := by
  obtain ⟨metatypes, ms, v, x, hsettle, hgenerate, hreplace, hreport, hsettled, -⟩ :=
    settledTypes_refresh h htext hlaw hdots hregs hrun
  have hgenerated : Change s.outDir d (fun q => ∃ m ∈ changedOf ms, IsBeside d m.module q) v.tree
      (v.run ((changedOf ms).forM (s.generate (foreignTypes metatypes ms)))).2.tree :=
    change_forM_generate hlaw hsettled.change.ground
      fun m hm => hsettled.named (mem_changedOf.1 hm).1
  rw [hgenerate] at hgenerated
  have hreplaced := hsettled.replaces hgenerated.ground htext hreplace
  exact ⟨metatypes, ms, v, x, hsettle, hgenerate, hreport, hsettled,
    hsettled.leaves hgenerated hreplaced,
    (hgenerated.mono fun q ⟨m, _, hq⟩ => .inl ⟨m.module, hq.touchedBy⟩).trans
      (hreplaced.change.mono fun q hq => .inr hq), hreplaced.change⟩

end Stubs

end QmlStubs
