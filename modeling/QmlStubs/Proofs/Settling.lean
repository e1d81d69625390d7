import QmlStubs.Proofs.Homes
import QmlStubs.Proofs.RefreshedTree

/-!
# Modules with files of their own

A module's directory is joined from the parts of its name, and any text can be a name: parts may be
empty, have slashes in them, or lead to another place altogether. So two names can have one
directory, and then the modules have the same files. Nothing else can make one module disturb
another, however their names and the output directory are written:

> **where no two modules that are looked at have the same types file, and no link stands in the
> place of one of their files, each module is settled as if it were alone** (`SettlesAt`,
> `Stubs.of_run_mapM_settleOwn`).

A module's own files lie in the home of its directory. Before it is looked at only the files of other
modules are touched (`SettlesAt.before`), and after it, too (`SettlesAt.after`).
-/

set_option autoImplicit false

namespace QmlStubs

open FileTree

namespace Stubs

open Workbench

variable {s : Stubs} {w w' : Workbench} {t u v : FileTree} {c : Place} {k : QmlModule}
variable {ks : List QmlModule} {m : Settled} {ms : List Settled}
variable {base : Path} {files clean : PathSet} {fresh : QmlModule → List TypesEntry}

/-! ## Files of their own -/

/-- A place of a file of a module. -/
def IsFileOf (s : Stubs) (t : FileTree) (k : QmlModule) (q : Place) : Prop :=
  ∃ c, IsHome t (k.directoryIn s.outDir) c ∧ ∃ n ∈ k.fileNames, q = c ++ [n]

/-- A place of a file of another one of the modules. -/
def IsFileOfOther (s : Stubs) (t : FileTree) (ks : List QmlModule) (k : QmlModule) (q : Place) :
    Prop :=
  ∃ k' ∈ ks, k' ≠ k ∧ IsFileOf s t k' q

/-- No two of the modules have the same types file, and no link stands in the place of a file of one
of them. -/
structure HaveOwnFiles (s : Stubs) (t : FileTree) (ks : List QmlModule) : Prop where
  apart : ∀ k ∈ ks, ∀ k' ∈ ks, ∀ c, IsHome t (k.directoryIn s.outDir) c →
    IsHome t (k'.directoryIn s.outDir) c → k.typesFileName = k'.typesFileName → k = k'
  plain : ∀ k ∈ ks, ∀ c, IsHome t (k.directoryIn s.outDir) c →
    ∀ n ∈ "qmldir" :: k.fileNames, IsPlainAt t (c ++ [n])

theorem isFileOf_of_isHome (hc : IsHome t (k.directoryIn s.outDir) c) {n : String}
    (hn : n ∈ k.fileNames) : IsFileOf s t k (c ++ [n]) := ⟨c, hc, n, hn, rfl⟩

/-- **A file belongs to one of the modules.** -/
theorem HaveOwnFiles.unique (h : HaveOwnFiles s t ks) {k' : QmlModule} (hk : k ∈ ks) (hk' : k' ∈ ks)
    {q : Place} (hq : IsFileOf s t k q) (hq' : IsFileOf s t k' q) : k = k' := by
  obtain ⟨c, hc, n, hn, rfl⟩ := hq
  obtain ⟨c', hc', n', hn', hsame⟩ := hq'
  obtain ⟨rfl, hname⟩ := List.append_inj' hsame rfl
  obtain rfl := List.singleton_inj.1 hname
  exact h.apart k hk k' hk' c hc hc' (QmlModule.typesFileName_eq_of_mem_fileNames hn hn')

/-- **Modules whose names have parts that directories can have as names** have files of their own
where there are no links. -/
theorem HaveOwnFiles.of_wellNamed {d : Place} (hd : IsHome t s.outDir d)
    (htext : s.outDir.text ≠ "") (hlinkless : IsLinkless d t) (hks : ∀ k ∈ ks, k.IsWellNamed) :
    HaveOwnFiles s t ks := by
  have hhome : ∀ k ∈ ks, ∀ c, IsHome t (k.directoryIn s.outDir) c → c = d ++ k.parts :=
    fun k hk _ hc => hd.of_joins htext hlinkless (hks k hk).isName hc
  constructor
  case apart =>
    intro k hk k' hk' c hc hc' hname
    have hparts := (hhome k hk c hc).symm.trans (hhome k' hk' c hc')
    exact QmlModule.eq_of_mem_fileNames (List.append_cancel_left hparts)
      (List.mem_cons_self ..) (hname ▸ List.mem_cons_self ..)
  case plain =>
    intro k hk c hc n _ target he
    rw [hhome k hk c hc, List.append_assoc] at he
    exact hlinkless (k.parts ++ [n]) _ (by simp) he target rfl

section Reworked

variable {touched : Place → Prop}

theorem isFileOf_iff (h : Reworked touched t u) {q : Place} :
    IsFileOf s u k q ↔ IsFileOf s t k q := by
  unfold IsFileOf
  simp only [h.isHome_iff]

theorem HaveOwnFiles.of_reworked (hown : HaveOwnFiles s t ks) (h : Reworked touched t u) :
    HaveOwnFiles s u ks where
  apart k hk k' hk' c hc hc' := hown.apart k hk k' hk' c (h.isHome_iff.1 hc) (h.isHome_iff.1 hc')
  plain k hk c hc n hn := h.hasLinksOf.isPlainAt (hown.plain k hk c (h.isHome_iff.1 hc) n hn)

end Reworked

/-! ## Steps in a directory that is reached -/

/-- Entries are read from a file whose path can be used. -/
theorem fits_of_entriesOf (h : s.entriesOf t k ≠ []) :
    Fits (k.directoryIn s.outDir) k.typesFileName := by
  cases hplace : t.place? (s.typesPath k) with
  | ok q => exact (of_place?_join k.isName_typesFileName hplace).1
  | error e =>
    refine absurd ?_ h
    unfold entriesOf TypesFile.read read?
    rw [hplace]
    rfl

/-- **The entries of a module are those in the home of its directory.** -/
theorem entriesOf_eq_typesAt (hr : Reaches t (k.directoryIn s.outDir) c)
    (hplain : IsPlainAt t (c ++ [k.typesFileName]))
    (hfits : Fits (k.directoryIn s.outDir) k.typesFileName) :
    s.entriesOf t k = t.typesAt (c ++ [k.typesFileName]) := by
  unfold entriesOf TypesFile.read read?
  cases he : t.at? (c ++ [k.typesFileName]) with
  | none =>
    have hnone : t.place? (s.typesPath k) = .error .notFound := by
      unfold place? typesPath
      rw [follow?_join_free k.isName_typesFileName hfits hr he]
      rfl
    rw [hnone, typesAt_of_none he]
    rfl
  | some e =>
    have hplace : t.place? (s.typesPath k) = .ok (c ++ [k.typesFileName]) :=
      hr.place?_join k.isName_typesFileName hfits he hplain
    rw [hplace]
    unfold typesAt
    dsimp only [bind, Except.bind]
    rw [he]
    cases e with
    | directory time => rfl
    | link target => rfl
    | file content time x =>
      dsimp only [pure, Except.pure]
      cases TypesFile.ofBytes? content <;> rfl

/-- **Removing the files of a module leaves none of them.** -/
theorem of_run_removeFilesOwn (hr : Reaches w.tree (k.directoryIn s.outDir) c) (ht : IsTree w.tree)
    (hplain : ∀ n ∈ k.fileNames, IsPlainAt w.tree (c ++ [n]))
    (hrun : w.run (removeFiles k (k.directoryIn s.outDir)) = (.ok (), w')) :
    Fits (k.directoryIn s.outDir) k.typesFileName ∧
      Reworked (fun q => ∃ n ∈ k.fileNames, q = c ++ [n]) w.tree w'.tree ∧
      ∀ n ∈ k.fileNames, w'.tree.contentAt? (c ++ [n]) = none := by
  have hall := of_run_removeEach
    (fun u => Reworked (fun q => ∃ n ∈ k.fileNames, q = c ++ [n]) w.tree u)
    (fun n u => Fits (k.directoryIn s.outDir) n ∧ u.contentAt? (c ++ [n]) = none)
    (fun n hn t u h hu => ?_) (.refl ht) hrun
  · exact ⟨(hall.2.2 _ (List.mem_cons_self ..)).1, hall.1, fun n hn => (hall.2.2 n hn).2⟩
  · obtain ⟨hfits, hone, hgone⟩ := (h.reaches hr).reworked_removeIfPresent h.isTree
      (QmlModule.isName_of_mem_fileNames hn) (h.hasLinksOf.isPlainAt (hplain n hn)) hu
    have hnone : u.contentAt? (c ++ [n]) = none := by
      unfold contentAt?
      rw [hgone]
    refine ⟨h.trans (hone.mono fun q hq => ⟨n, hn, hq⟩), ⟨hfits, hnone⟩, fun m hm => ⟨hm.1, ?_⟩⟩
    by_cases he : c ++ [m] = c ++ [n]
    · rw [he, hnone]
    · rw [hone.contentAt?_eq he, hm.2]

/-! ## One module -/

/-- What settling a module with files of its own comes to, from a tree before it to a tree after it,
with others of the modules settled in between. Its directory has its home at `c`. -/
structure SettlesAt (s : Stubs) (ks : List QmlModule) (base : Path) (files clean : PathSet)
    (fresh : QmlModule → List TypesEntry) (t u : FileTree) (c : Place) (m : Settled) : Prop where
  directory : m.directory = m.module.directoryIn s.outDir
  reaches : Reaches u m.directory c
  merged : ∃ v, Reworked (IsFileOfOther s t ks m.module) t v ∧
    (∀ q, v.isDirectoryAt q = true → u.isDirectoryAt q = true) ∧
    m.entries = merge v base clean (t.typesAt (c ++ [m.module.typesFileName])) (fresh m.module) ∧
    ∀ e ∈ m.entries, files.has (e.resolvedInput v base) = true
  changed : m.changed = true ↔
    m.entries ≠ [] ∧ m.entries ≠ t.typesAt (c ++ [m.module.typesFileName])
  stored : m.entries ≠ [] → Fits m.directory m.module.typesFileName ∧ ∃ content,
    u.contentAt? (c ++ [m.module.typesFileName]) = some content ∧
      TypesFile.ofBytes? content = some m.entries
  same : m.entries ≠ [] → m.changed = false →
    u.contentAt? (c ++ [m.module.typesFileName]) = t.contentAt? (c ++ [m.module.typesFileName])
  gone : m.entries = [] → ∀ n ∈ m.module.fileNames, u.contentAt? (c ++ [n]) = none

section Order

variable {touched : Place → Prop}

/-- **A module stays settled** when its files are not touched any more, -/
theorem SettlesAt.after (h : SettlesAt s ks base files clean fresh t u c m)
    (hc : Reworked touched u v) (htypes : ¬ touched (c ++ [m.module.typesFileName]))
    (hfiles : m.entries = [] → ∀ n ∈ m.module.fileNames, ¬ touched (c ++ [n])) :
    SettlesAt s ks base files clean fresh t v c m where
  directory := h.directory
  reaches := hc.reaches h.reaches
  merged := by
    obtain ⟨x, hx, hdirs, hmerge⟩ := h.merged
    exact ⟨x, hx, fun q hq => hc.directories q (hdirs q hq), hmerge⟩
  changed := h.changed
  stored hne := by
    rw [hc.contentAt?_eq htypes]
    exact h.stored hne
  same hne hsame := by
    rw [hc.contentAt?_eq htypes]
    exact h.same hne hsame
  gone hnil n hn := by
    rw [hc.contentAt?_eq (hfiles hnil n hn)]
    exact h.gone hnil n hn

/-- and is settled as it would be **before** the files of others were touched. -/
theorem SettlesAt.before (h : SettlesAt s ks base files clean fresh u v c m)
    (hc : Reworked touched t u) (hothers : ∀ q, touched q → IsFileOfOther s t ks m.module q)
    (htypes : ¬ touched (c ++ [m.module.typesFileName])) :
    SettlesAt s ks base files clean fresh t v c m := by
  have hformer := hc.typesAt_eq htypes
  refine ⟨h.directory, h.reaches, ?_, hformer ▸ h.changed, h.stored, fun hne hsame => ?_, h.gone⟩
  · obtain ⟨x, hx, hdirs, hmerge, hgiven⟩ := h.merged
    rw [hformer] at hmerge
    refine ⟨x, (hc.mono hothers).trans (hx.mono fun q hq => ?_), hdirs, hmerge, hgiven⟩
    obtain ⟨k', hk', hne, hq⟩ := hq
    exact ⟨k', hk', hne, (isFileOf_iff hc).1 hq⟩
  · rw [h.same hne hsame, hc.contentAt?_eq htypes]

end Order

/-- **A module that is settled has the clean former entries and the fresh ones**, all from source
files, and changes its own files alone. -/
theorem of_run_settleOwn {known : Fresh} (ht : IsTree w.tree) (hown : HaveOwnFiles s w.tree ks)
    (hk : k ∈ ks) (hrun : w.run (s.settle base files clean known k) = (.ok m, w')) :
    m.module = k ∧ Reworked (IsFileOf s w.tree k) w.tree w'.tree ∧
      ∃ c, SettlesAt s ks base files clean (fun k => (known.find? k).getD []) w.tree w'.tree c m := by
  unfold settle at hrun
  obtain ⟨_, v, hmake, hrun⟩ := ok_of_run_bind hrun
  have hmake := of_run_edit hmake
  obtain ⟨c, hr⟩ := reaches_of_makeDirectories ht hmake
  have hgrown := grown_makeDirectories (t := w.tree) (k.directoryIn s.outDir)
  rw [hmake] at hgrown
  have hmade : Reworked (fun _ => False) w.tree v.tree := .of_grown hgrown ht
  have hhome : IsHome w.tree (k.directoryIn s.outDir) c := hr.isHome hmade.hasLinksOf
  have hplain : ∀ n ∈ k.fileNames, IsPlainAt v.tree (c ++ [n]) := fun n hn =>
    hmade.hasLinksOf.isPlainAt (hown.plain k hk c hhome n (List.mem_cons_of_mem _ hn))
  have hplainTypes := hplain k.typesFileName (List.mem_cons_self ..)
  obtain ⟨former, v', hformer, hrun⟩ := ok_of_run_bind hrun
  obtain ⟨rfl, rfl⟩ := of_run_formerEntries hformer
  have hrun := ok_of_run_get hrun
  dsimp only at hrun
  -- Whatever is done with the entries, it shows that the path of the types file can be used.
  have hentries : Fits (k.directoryIn s.outDir) k.typesFileName →
      s.entriesOf v'.tree k = w.tree.typesAt (c ++ [k.typesFileName]) := fun hfits =>
    (entriesOf_eq_typesAt hr hplainTypes hfits).trans (hmade.typesAt_eq id)
  have hmerged : ∀ {entries : List TypesEntry},
      (∀ e ∈ entries, files.has (e.resolvedInput v'.tree base) = true) →
      Fits (k.directoryIn s.outDir) k.typesFileName →
      merge v'.tree base clean (s.entriesOf v'.tree k) ((known.find? k).getD []) = entries →
      (∀ q, v'.tree.isDirectoryAt q = true → w'.tree.isDirectoryAt q = true) →
      ∃ x, Reworked (IsFileOfOther s w.tree ks k) w.tree x ∧
        (∀ q, x.isDirectoryAt q = true → w'.tree.isDirectoryAt q = true) ∧
        entries = merge x base clean (w.tree.typesAt (c ++ [k.typesFileName]))
          ((known.find? k).getD []) ∧
        ∀ e ∈ entries, files.has (e.resolvedInput x base) = true := by
    intro entries hgiven hfits hmerge hdirs
    exact ⟨v'.tree, hmade.mono fun _ => False.elim, hdirs, by rw [← hmerge, hentries hfits], hgiven⟩
  generalize hmerge : merge v'.tree base clean (s.entriesOf v'.tree k) ((known.find? k).getD []) =
    entries at hrun
  split at hrun
  next => exact absurd hrun run_throw_ne
  next hfind =>
    have hgiven : ∀ e ∈ entries, files.has (e.resolvedInput v'.tree base) = true := by
      intro e he
      simpa using List.find?_eq_none.1 hfind e he
    split at hrun
    next hempty =>
      obtain rfl : entries = [] := List.isEmpty_iff.1 hempty
      obtain ⟨_, x, hremove, hrun⟩ := ok_of_run_bind hrun
      obtain ⟨rfl, rfl⟩ := eq_of_run_pure hrun
      obtain ⟨hfits, hremoved, hgone⟩ := of_run_removeFilesOwn hr hmade.isTree hplain hremove
      refine ⟨rfl, (hmade.mono fun _ => False.elim).trans (hremoved.mono ?_), c, rfl,
        hremoved.reaches hr, hmerged hgiven hfits hmerge hremoved.directories, by simp,
        fun hne => absurd rfl hne, fun hne => absurd rfl hne, fun _ => hgone⟩
      rintro q ⟨n, hn, rfl⟩
      exact isFileOf_of_isHome hhome hn
    next hsome =>
      have hne : entries ≠ [] := by simpa using hsome
      split at hrun
      next hold =>
        obtain ⟨rfl, rfl⟩ := eq_of_run_pure hrun
        have hfits : Fits (k.directoryIn s.outDir) k.typesFileName :=
          fits_of_entriesOf (hold ▸ hne)
        have hformer : w.tree.typesAt (c ++ [k.typesFileName]) = entries :=
          (hentries hfits).symm.trans hold
        have hcontent : w'.tree.contentAt? (c ++ [k.typesFileName]) =
            w.tree.contentAt? (c ++ [k.typesFileName]) := hmade.contentAt?_eq id
        refine ⟨rfl, hmade.mono fun _ => False.elim, c, rfl, hr,
          hmerged hgiven hfits hmerge fun _ => id, by simp [hformer], fun _ => ⟨hfits, ?_⟩,
          fun _ _ => hcontent, fun hnil => absurd hnil hne⟩
        rw [hcontent]
        exact exists_content_of_typesAt hformer hne
      next hnew =>
        obtain ⟨_, x, hwrite, hrun⟩ := ok_of_run_bind hrun
        obtain ⟨rfl, rfl⟩ := eq_of_run_pure hrun
        obtain ⟨hfits, hw, b, hput⟩ := hr.of_run_write k.isName_typesFileName hplainTypes
          (of_run_edit hwrite)
        have hwritten : Reworked (· = c ++ [k.typesFileName]) v'.tree w'.tree := by
          rw [hput]
          exact .put_file hmade.isTree hr.isDirectory hw _ _ _
        have hold : w.tree.typesAt (c ++ [k.typesFileName]) ≠ entries := fun he =>
          hnew ((hentries hfits).trans he)
        refine ⟨rfl, (hmade.mono fun _ => False.elim).trans (hwritten.mono ?_), c, rfl,
          hwritten.reaches hr, hmerged hgiven hfits hmerge hwritten.directories,
          by simpa using ⟨hne, Ne.symm hold⟩, fun _ => ⟨hfits, ?_⟩, nofun, fun hnil => absurd hnil hne⟩
        · rintro q rfl
          exact isFileOf_of_isHome hhome (List.mem_cons_self ..)
        · refine ⟨(TypesFile.text entries).toUTF8, ?_, TypesFile.ofBytes?_text entries⟩
          unfold contentAt?
          rw [hput, at?_put (by simp), if_pos rfl]

/-! ## All modules -/

/-- **Modules with files of their own do not disturb each other** when they are settled one after
another. -/
theorem of_run_mapM_settleOwn {known : Fresh} {todo : List QmlModule} (hnodup : todo.Nodup)
    (htodo : ∀ k ∈ todo, k ∈ ks) (ht : IsTree w.tree) (hown : HaveOwnFiles s w.tree ks)
    (hrun : w.run (todo.mapM (s.settle base files clean known)) = (.ok ms, w')) :
    ms.map (·.module) = todo ∧
      Reworked (fun q => ∃ k ∈ todo, IsFileOf s w.tree k q) w.tree w'.tree ∧
      ∀ m ∈ ms, ∃ c, SettlesAt s ks base files clean (fun k => (known.find? k).getD [])
        w.tree w'.tree c m := by
  induction todo generalizing w ms with
  | nil =>
    rw [List.mapM_nil] at hrun
    obtain ⟨rfl, rfl⟩ := eq_of_run_pure hrun
    exact ⟨rfl, .refl ht, nofun⟩
  | cons k todo ih =>
    obtain ⟨hnot, hrestnodup⟩ := List.nodup_cons.1 hnodup
    obtain ⟨hk, hrestmem⟩ := List.forall_mem_cons.1 htodo
    obtain ⟨m, rest, v, rfl, hfirst, hrest⟩ := ok_of_run_mapM hrun
    obtain ⟨rfl, hchange, c, hsettled⟩ := of_run_settleOwn ht hown hk hfirst
    obtain ⟨hmodules, hall, hothers⟩ :=
      ih hrestnodup hrestmem hchange.isTree (hown.of_reworked hchange) hrest
    have hall : Reworked (fun q => ∃ k ∈ todo, IsFileOf s w.tree k q) v.tree w'.tree :=
      hall.mono fun q ⟨k', hk', hq⟩ => ⟨k', hk', (isFileOf_iff hchange).1 hq⟩
    refine ⟨by rw [List.map_cons, hmodules], ?_, fun m' hm' => ?_⟩
    · exact (hchange.mono fun q hq => ⟨m.module, List.mem_cons_self .., hq⟩).trans
        (hall.mono fun q ⟨k', hk', hq⟩ => ⟨k', List.mem_cons_of_mem _ hk', hq⟩)
    · rcases List.mem_cons.1 hm' with rfl | hm'
      · have hhome : IsHome w.tree (m'.module.directoryIn s.outDir) c :=
          hchange.isHome_iff.1 (hsettled.directory ▸ hsettled.reaches.isHome (.refl _))
        have hfree : ∀ n ∈ m'.module.fileNames,
            ¬ ∃ k ∈ todo, IsFileOf s w.tree k (c ++ [n]) := by
          rintro n hn ⟨k', hk', hq⟩
          have hsame := hown.unique hk (hrestmem k' hk') (isFileOf_of_isHome hhome hn) hq
          exact hnot (hsame ▸ hk')
        exact ⟨c, hsettled.after hall (hfree _ (List.mem_cons_self ..)) fun _ => hfree⟩
      · have hmem : m'.module ∈ todo := by
          rw [← hmodules]
          exact List.mem_map.2 ⟨m', hm', rfl⟩
        have hne : m.module ≠ m'.module := by
          intro he
          exact hnot (he ▸ hmem)
        obtain ⟨c', hsettled'⟩ := hothers m' hm'
        refine ⟨c', hsettled'.before hchange (fun q hq => ⟨m.module, hk, hne, hq⟩) fun hq => ?_⟩
        have hhome : IsHome w.tree (m'.module.directoryIn s.outDir) c' := by
          have hthere := hsettled'.directory ▸ hsettled'.reaches.isHome (.refl _)
          exact hchange.isHome_iff.1 (hall.isHome_iff.1 hthere)
        exact hne (hown.unique hk (hrestmem _ hmem) hq
          (isFileOf_of_isHome hhome (List.mem_cons_self ..)))

/-! ## The registrar -/

/-- The registrar changes the other files of its module alone, whether it succeeds or not. -/
theorem reworked_generate (hlaw : s.registrar.OnlyWritesOutputs) (ht : IsTree w.tree)
    (hr : Reaches w.tree m.directory c)
    (hplain : ∀ n ∈ m.module.otherNames, IsPlainAt w.tree (c ++ [n])) (foreign : List Path) :
    Reworked (fun q => ∃ n ∈ m.module.otherNames, q = c ++ [n]) w.tree
      (w.run (s.generate foreign m)).2.tree := by
  refine keeps_generate hlaw foreign
    (Reworked (fun q => ∃ n ∈ m.module.otherNames, q = c ++ [n]) w.tree) (.refl ht)
    fun n hn u content hu => ?_
  have hone := (hu.reaches hr).reworked_write hu.isTree (QmlModule.isName_of_mem_otherNames hn)
    (hu.hasLinksOf.isPlainAt (hplain n hn)) content
  exact hu.trans (hone.mono fun q hq => ⟨n, hn, hq⟩)

/-- A place of a file that is made from the types file of one of the modules. -/
def IsMadeFor (t : FileTree) (ms : List Settled) (q : Place) : Prop :=
  ∃ m ∈ ms, ∃ c, IsHome t m.directory c ∧ ∃ n ∈ m.module.otherNames, q = c ++ [n]

/-- Running the registrar for several modules changes the files that are made for them. -/
theorem reworked_forM_generate (hlaw : s.registrar.OnlyWritesOutputs) (ht : IsTree w.tree)
    {foreign : List Path}
    (hms : ∀ m ∈ ms, ∃ c, Reaches w.tree m.directory c ∧
      ∀ n ∈ m.module.otherNames, IsPlainAt w.tree (c ++ [n])) :
    Reworked (IsMadeFor w.tree ms) w.tree (w.run (ms.forM (s.generate foreign))).2.tree := by
  refine keeps_forM (Reworked (IsMadeFor w.tree ms) w.tree) (.refl ht) fun m hm v hv => ?_
  obtain ⟨c, hr, hplain⟩ := hms m hm
  have hone := reworked_generate hlaw hv.isTree (hv.reaches hr)
    (fun n hn => hv.hasLinksOf.isPlainAt (hplain n hn)) foreign
  exact hv.trans (hone.mono fun q ⟨n, hn, hq⟩ => ⟨m, hm, c, hr.isHome (.refl _), n, hn, hq⟩)

/-! ## The `qmldir` files -/

/-- What is removed in the last phase has the name of a `qmldir` file, wherever it lies and wherever
the phase ends. -/
theorem agreesBut_removeAll (ht : IsTree w.tree) {paths : List Path}
    (hpaths : ∀ p ∈ paths, p.fileName? = some "qmldir") :
    AgreesBut "qmldir" w.tree
      (w.run (paths.forM fun p => edit (FileTree.removeFile p) .file)).2.tree := by
  refine keeps_forM (AgreesBut "qmldir" w.tree) (.refl ht) fun p hp v hv => hv.trans ?_
  rw [tree_run_edit]
  unfold removeFile
  rw [run_editBy]
  split
  next hremoved => exact .of_withoutFile? hv.isTree (hpaths p hp) hremoved
  next => exact .refl hv.isTree

/-- What a refresh removes in its last phase has the name of a `qmldir` file. -/
theorem fileName?_of_run_globQmldirs {paths : List Path}
    (h : w.run (glob s.outDir "**/qmldir") = (.ok paths, w')) :
    ∀ p ∈ paths, p.fileName? = some "qmldir" := by
  obtain ⟨rfl, found, hfound, hmem⟩ := of_run_glob h
  intro p hp
  have hpattern : "**/qmldir".toList = '*' :: '*' :: '/' :: "qmldir".toList := by decide
  rw [hpattern] at hfound
  have hlast := Glob.matchesLast_of_mem_pathsBelow? (by decide) (by decide) part?_qmldir
    (by simp [qmldirPart]) hfound ((hmem p).1 hp)
  unfold Glob.matchesLast at hlast
  split at hlast
  next name hname =>
    have he : "qmldir" = name := by simpa [Glob.Part.matchesName, qmldirPart] using hlast
    rw [hname, he]
  next => exact absurd hlast (by simp)

/-- What is written in the last phase lies in the homes of its directories, which are still
reached. -/
theorem agreesBut_writeAll (ht : IsTree w.tree) (hlinks : HasLinksOf t w.tree) {dirs : List Qmldir}
    (hdirs : ∀ q ∈ dirs, ∃ c, IsHome t q.directory c ∧ IsPlainAt t (c ++ ["qmldir"]))
    (hrun : w.run (dirs.forM fun q => edit (FileTree.writeText q.path q.text) .file) =
      (.ok (), w')) :
    AgreesBut "qmldir" w.tree w'.tree ∧ (∀ p c, Reaches w.tree p c → Reaches w'.tree p c) ∧
      ∀ q ∈ dirs, ∃ c, Reaches w'.tree q.directory c := by
  induction dirs generalizing w with
  | nil =>
    obtain ⟨-, rfl⟩ := eq_of_run_pure hrun
    exact ⟨.refl ht, fun _ _ => id, nofun⟩
  | cons q dirs ih =>
    obtain ⟨⟨c, hc, hplain⟩, hrest⟩ := List.forall_mem_cons.1 hdirs
    obtain ⟨v, hfirst, hrun⟩ := ok_of_run_forM hrun
    have hwrite : w.tree.run (FileTree.write (q.directory.join "qmldir") q.text.toUTF8) =
        (.ok (), v.tree) := of_run_edit hfirst
    obtain ⟨-, c', hr, -⟩ := of_run_write_join QmlModule.isName_qmldir hwrite
    obtain rfl : c' = c := (hr.isHome hlinks).unique hc
    obtain ⟨-, hw, x, hput⟩ :=
      hr.of_run_write QmlModule.isName_qmldir (hlinks.isPlainAt hplain) hwrite
    have hone : AgreesBut "qmldir" w.tree v.tree := by
      rw [hput]
      exact .put_file ht hr.isDirectory hw _ _ _
    have hreworked : Reworked (· = c' ++ ["qmldir"]) w.tree v.tree := by
      rw [hput]
      exact .put_file ht hr.isDirectory hw _ _ _
    obtain ⟨hothers, hreach, hall⟩ :=
      ih hone.isTree (hlinks.trans hone.hasLinksOf fun r hr => hone.directories r ▸ hr) hrest hrun
    refine ⟨hone.trans hothers, fun p d hp => hreach p d (hreworked.reaches hp), fun q' hq' => ?_⟩
    rcases List.mem_cons.1 hq' with rfl | hq'
    · exact ⟨c', hreach _ _ (hreworked.reaches hr)⟩
    · exact hall q' hq'

/-- **The last phase changes files and links named `qmldir` alone**, and the directories that it
writes to are still there. -/
theorem agreesBut_replaceQmldirs (ht : IsTree w.tree) {dirs : List Qmldir}
    (hdirs : ∀ q ∈ dirs, ∃ c, IsHome w.tree q.directory c ∧ IsPlainAt w.tree (c ++ ["qmldir"]))
    (hrun : w.run (s.replaceQmldirs dirs) = (.ok (), w')) :
    AgreesBut "qmldir" w.tree w'.tree ∧ ∀ q ∈ dirs, ∃ c, Reaches w'.tree q.directory c := by
  unfold replaceQmldirs at hrun
  obtain ⟨paths, v, hglob, hrest⟩ := ok_of_run_bind hrun
  have hpaths := fileName?_of_run_globQmldirs hglob
  obtain ⟨rfl, -⟩ := of_run_glob hglob
  obtain ⟨_, x, hremove, hwrite⟩ := ok_of_run_bind hrest
  have hremoved := agreesBut_removeAll ht hpaths
  rw [hremove] at hremoved
  obtain ⟨hwritten, -, hall⟩ :=
    agreesBut_writeAll hremoved.isTree hremoved.hasLinksOf hdirs hwrite
  exact ⟨hremoved.trans hwritten, hall⟩

end Stubs

end QmlStubs
