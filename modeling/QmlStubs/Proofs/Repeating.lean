import Mathlib.Data.List.Nodup
import QmlStubs.Proofs.Outputs
import QmlStubs.Proofs.Steadiness

/-!
# Refreshing again

A refresh leaves its modules at rest: their types files are sorted, all entries come from source
files, the directories are there, and modules without entries have no files. Settling a module at
rest edits nothing (`Rests.run_settle`), so no registrar is run, and the `qmldir` files are replaced
by the same ones.
-/

set_option autoImplicit false

namespace QmlStubs

open FileTree

namespace Workbench

variable {w : Workbench} {α β : Type}

/-- A loop over steps that change nothing changes nothing. -/
theorem run_forM_same {f : α → Refresh Unit} {l : List α} (h : ∀ a ∈ l, w.run (f a) = (.ok (), w)) :
    w.run (l.forM f) = (.ok (), w) := by
  induction l with
  | nil => rfl
  | cons a l ih =>
    have hcons : (a :: l).forM f = f a >>= fun _ => l.forM f := rfl
    rw [hcons, run_bind, h a (List.mem_cons_self ..)]
    exact ih fun b hb => h b (List.mem_cons_of_mem _ hb)

theorem run_mapM_same {f : α → Refresh β} {g : α → β} {l : List α}
    (h : ∀ a ∈ l, w.run (f a) = (.ok (g a), w)) : w.run (l.mapM f) = (.ok (l.map g), w) := by
  induction l with
  | nil => rfl
  | cons a l ih =>
    rw [List.mapM_cons, run_bind, h a (List.mem_cons_self ..)]
    dsimp only
    rw [run_bind, ih fun b hb => h b (List.mem_cons_of_mem _ hb)]
    rfl

end Workbench

namespace Stubs

open Workbench

variable {s : Stubs} {w w' : Workbench} {t u : FileTree} {d : Place} {k : QmlModule}
variable {base : Path} {files stale clean : PathSet}

/-! ## Merging again -/

/-- The order of the entries in a types file. -/
def InOrder (a b : TypesEntry) : Prop := (compare a.sortKey b.sortKey).isLE = true

/-- Merging sorts. -/
theorem pairwise_merge (former fresh : List TypesEntry) :
    (merge t base clean former fresh).Pairwise InOrder := by
  refine List.pairwise_mergeSort (fun a b c hab hbc => ?_) (fun a b => ?_) _
  · exact Std.TransCmp.isLE_trans hab hbc
  · have hswap : compare a.sortKey b.sortKey = (compare b.sortKey a.sortKey).swap :=
      Std.OrientedOrd.eq_swap
    rw [hswap]
    cases compare b.sortKey a.sortKey <;> rfl

/-- **Merging again changes nothing**, when all entries are clean. -/
theorem merge_eq_self {es : List TypesEntry} (hsorted : es.Pairwise InOrder)
    (hclean : ∀ e ∈ es, clean.has (e.resolvedInput t base) = true) :
    merge t base clean es [] = es := by
  unfold merge
  rw [List.append_nil, List.filter_eq_self.2 hclean]
  exact List.mergeSort_of_pairwise hsorted

/-- Without stale files all files are clean. -/
theorem cleanFiles_empty : cleanFiles files .empty = files := by
  refine SortedMap.ext_find? fun cs => ?_
  unfold cleanFiles
  rw [SortedMap.find?_filter]
  cases files.find? cs with
  | none => rfl
  | some p => rfl

/-! ## Modules at rest -/

/-- A module that another settling leaves alone. -/
structure Rests (s : Stubs) (d : Place) (files : PathSet) (t : FileTree) (k : QmlModule) : Prop where
  named : k.IsWellNamed
  made : textError? (joins s.outDir k.parts) = none ∧ t.isDirectoryAt (d ++ k.parts) = true
  sorted : (s.entriesOf t k).Pairwise InOrder
  given : ∀ e ∈ s.entriesOf t k, files.has (e.resolvedInput t (s.base t)) = true
  gone : s.entriesOf t k = [] → ∀ n ∈ k.fileNames,
    Fits (joins s.outDir k.parts) n ∧ t.at? (d ++ (k.parts ++ [n])) = none

/-- What settling a module at rest comes to. -/
def restOf (s : Stubs) (t : FileTree) (k : QmlModule) : Settled :=
  ⟨k, k.directoryIn s.outDir, s.entriesOf t k, false⟩

namespace Rests

/-- The types file of a module at rest is read, or is not there. -/
theorem run_formerEntries (h : Ground w.tree s.outDir d) (hk : Rests s d files w.tree k) :
    w.run (formerEntries (s.typesPath k)) = (.ok (s.entriesOf w.tree k), w) := by
  unfold formerEntries
  rw [run_get_bind]
  dsimp only
  cases hp : w.tree.isPresent (s.typesPath k) with
  | false =>
    rw [entriesOf_of_absent hp, if_neg (by simp)]
    rfl
  | true =>
    rw [if_pos rfl]
    cases hr : TypesFile.read w.tree (s.typesPath k) with
    | ok es =>
      have hes : s.entriesOf w.tree k = es := by
        unfold entriesOf
        rw [hr]
      rw [hes]
      rfl
    | error e =>
      -- A file that cannot be read would be in the way, and is gone.
      have hnil : s.entriesOf w.tree k = [] := by
        unfold entriesOf
        rw [hr]
      obtain ⟨-, hnone⟩ := hk.gone hnil k.typesFileName (List.mem_cons_self ..)
      obtain ⟨q, hq⟩ := exists_ok_of_toBool hp
      rw [typesPath_eq] at hq
      obtain ⟨-, -, hsome⟩ := (h.place?_joins k.typesNames_ne_nil hk.named.isName_typesNames).1 hq
      unfold QmlModule.typesNames at hsome
      rw [hnone] at hsome
      exact absurd hsome (by simp)

/-- Files that are gone are not removed again. -/
theorem run_removeFiles (h : Ground w.tree s.outDir d) (hk : Rests s d files w.tree k)
    (hnil : s.entriesOf w.tree k = []) :
    w.run (removeFiles k (k.directoryIn s.outDir)) = (.ok (), w) := by
  refine run_forM_same fun n hn => ?_
  obtain ⟨hfits, hnone⟩ := hk.gone hnil n hn
  rw [← List.append_assoc] at hnone
  exact run_edit_ok (h.run_removeIfPresent_of_none (QmlModule.isName_of_mem_fileNames hn) hfits
    hk.made.2 hnone)

/-- **Settling a module at rest changes nothing.** -/
theorem run_settle (h : Ground w.tree s.outDir d) (hk : Rests s d files w.tree k) :
    w.run (s.settle (s.base w.tree) files files .empty k) = (.ok (s.restOf w.tree k), w) := by
  have hdir : w.tree.isDirectory (k.directoryIn s.outDir) = true :=
    isDirectory_iff.2 ⟨hk.made.1, _, (h.joins hk.made.2).reaches⟩
  have hmake : w.run (edit (makeDirectories (k.directoryIn s.outDir)) .file) = (.ok (), w) :=
    run_edit_ok (makeDirectories_of_isDirectory hdir)
  have hmerge : merge w.tree (s.base w.tree) files (s.entriesOf w.tree k) [] =
      s.entriesOf w.tree k := merge_eq_self hk.sorted hk.given
  have hfind : (s.entriesOf w.tree k).find?
      (fun e => !files.has (e.resolvedInput w.tree (s.base w.tree))) = none :=
    List.find?_eq_none.2 fun e he => by simpa using hk.given e he
  have hformer : w.run (formerEntries ((k.directoryIn s.outDir).join k.typesFileName)) =
      (.ok (s.entriesOf w.tree k), w) := hk.run_formerEntries h
  unfold settle
  rw [run_bind, hmake]
  dsimp only
  rw [run_bind, hformer]
  dsimp only
  rw [run_get_bind, SortedMap.find?_empty, Option.getD_none, hmerge, hfind]
  dsimp only
  by_cases hnil : s.entriesOf w.tree k = []
  · rw [if_pos (by rw [hnil]; rfl), run_bind, hk.run_removeFiles h hnil]
    unfold restOf
    rw [hnil]
    rfl
  · rw [if_neg (by simpa using hnil), if_pos rfl]
    rfl

end Rests

/-! ## What a refresh leaves is at rest -/

/-- The input file of an entry is among some files once it was, whatever outputs are written. -/
def StaysGiven (s : Stubs) (d : Place) (files : PathSet) (t : FileTree) (e : TypesEntry) : Prop :=
  ∀ v u, Change s.outDir d (IsOutput d) t v → Change s.outDir d (IsOutput d) v u →
    files.has (e.resolvedInput v (s.base t)) = true →
    files.has (e.resolvedInput u (s.base u)) = true

section Leaves

variable {registrations : List Registration} {ms : List Settled} {v : FileTree}

/-- **What a refresh leaves is at rest**, if the input files of the entries stay given. -/
theorem Leaves.rests (h : Leaves s d ms t u)
    (hsettled : SettledTypes s d registrations files stale t v ms)
    (hrest : Change s.outDir d (IsOutput d) v u)
    (hinputs : ∀ k : QmlModule, k.IsWellNamed →
      ∀ e ∈ s.entriesOf t k ++ s.freshOf (s.base t) registrations k, s.StaysGiven d files t e)
    {m : Settled} (hm : m ∈ ms) : Rests s d files u m.module := by
  have hentries := h.entries m hm
  obtain ⟨y, hbefore, hafter, hmerge, hgiven⟩ := (hsettled.settled m hm).merged
  refine ⟨hsettled.wellNamed m hm, h.made m hm, ?_, fun e he => ?_, fun hnil => ?_⟩
  · rw [hentries, hmerge]
    exact pairwise_merge _ _
  · rw [hentries] at he
    have hgiven := hgiven e he
    rw [hmerge, merge, List.mem_mergeSort, List.mem_append] at he
    have hmem : e ∈ s.entriesOf t m.module ++ s.freshOf (s.base t) registrations m.module :=
      List.mem_append.2 (he.imp_left fun he => (List.mem_filter.1 he).1)
    exact hinputs m.module (hsettled.wellNamed m hm) e hmem y u
      (hbefore.mono fun _ hq => .inl hq) ((hafter.mono fun _ hq => .inl hq).trans hrest) hgiven
  · exact h.gone m hm (hentries ▸ hnil)

end Leaves

/-! ## Settling again -/

/-- A search fails by its pattern alone. -/
theorem isSome_pathsBelow? (t u : FileTree) (p : Path) (pattern : List Char) :
    (Glob.pathsBelow? t p pattern).isSome = (Glob.pathsBelow? u p pattern).isSome := by
  unfold Glob.pathsBelow?
  rw [Option.isSome_map, Option.isSome_map]

/-- The types of other modules are searched for in any tree, once they were. -/
theorem isSome_of_run_settleAll {registrations : List Registration} {ms : List Settled}
    {metatypes : List Path}
    (hrun : w.run (s.settleAll registrations files stale) = (.ok (metatypes, ms), w')) :
    (Glob.pathsBelow? t s.metatypesDir "*_metatypes.json".toList).isSome = true := by
  unfold settleAll at hrun
  have hrun := ok_of_run_get hrun
  dsimp only at hrun
  obtain ⟨fresh, v, -, hrun⟩ := ok_of_run_bind hrun
  obtain ⟨ks, x, -, hrun⟩ := ok_of_run_bind hrun
  obtain ⟨paths, y, hglob, -⟩ := ok_of_run_bind hrun
  obtain ⟨-, found, hfound, -⟩ := of_run_glob hglob
  rw [isSome_pathsBelow? t x.tree, hfound]
  rfl

/-- **Settling all modules again changes nothing.** -/
theorem run_settleAll_again (h : Ground w.tree s.outDir d) (htext : textError? s.outDir = none)
    (hmetatypes : (Glob.pathsBelow? w.tree s.metatypesDir "*_metatypes.json".toList).isSome = true)
    (hrests : ∀ k, IsListed w.tree s.outDir d k → Rests s d files w.tree k) :
    ∃ (metatypes : List Path) (ks : List QmlModule), w.run (s.settleAll [] files .empty) =
        (.ok (metatypes, ks.map (s.restOf w.tree)), w) ∧
      ks.Pairwise (fun a b => compare a b = .lt) ∧ ∀ k, k ∈ ks ↔ IsListed w.tree s.outDir d k := by
  obtain ⟨ks, hmodules, hsorted, hmem⟩ := run_modules h htext .empty
  have hmem : ∀ k, k ∈ ks ↔ IsListed w.tree s.outDir d k := fun k => by
    simpa [SortedMap.contains] using hmem k
  obtain ⟨found, hfound⟩ := Option.isSome_iff_exists.1 hmetatypes
  refine ⟨found.mergeSort fun p q => (compare p.components q.components).isLE, ks, ?_, hsorted,
    hmem⟩
  have hsettle : w.run (ks.mapM (s.settle (s.base w.tree) files files .empty)) =
      (.ok (ks.map (s.restOf w.tree)), w) :=
    run_mapM_same fun k hk => (hrests k ((hmem k).1 hk)).run_settle h
  unfold settleAll
  rw [run_get_bind]
  dsimp only
  have hgroup : w.run (liftM (s.group (s.base w.tree) []) : Refresh Fresh) = (.ok .empty, w) := rfl
  rw [run_bind, hgroup]
  dsimp only
  rw [run_bind, hmodules]
  dsimp only
  rw [run_bind, run_glob hfound]
  dsimp only
  have hclean : (files.filter fun p _ => !(SortedMap.empty : PathSet).contains p) = files :=
    cleanFiles_empty
  rw [hclean, run_bind, hsettle]
  rfl

/-- A settled module that counts as unchanged. -/
def unchanged (m : Settled) : Settled := { m with changed := false }

/-- No module at rest has changed. -/
theorem changedOf_rest (s : Stubs) (t : FileTree) (ks : List QmlModule) :
    changedOf (ks.map (s.restOf t)) = [] := by
  refine List.eq_nil_iff_forall_not_mem.2 fun m hm => ?_
  obtain ⟨hm, -, hchanged⟩ := mem_changedOf.1 hm
  obtain ⟨k, -, rfl⟩ := List.mem_map.1 hm
  exact absurd hchanged (by simp [restOf])

/-- Modules that have not changed are reported so. -/
theorem unchanged_reportOf {ms ms' : List Settled} (h : keptOf ms' = (keptOf ms).map unchanged) :
    (reportOf ms').unchanged = (keptOf ms).map (·.module) := by
  have hall : ∀ m ∈ keptOf ms', (!m.changed) = true := by
    intro m hm
    rw [h] at hm
    obtain ⟨m, -, rfl⟩ := List.mem_map.1 hm
    rfl
  unfold reportOf
  dsimp only
  rw [List.filter_eq_self.2 hall, h, List.map_map]
  rfl

/-- Every module with entries is reported, as changed or as unchanged. -/
theorem mem_reportOf {ms : List Settled} :
    k ∈ (reportOf ms).regenerated ∨ k ∈ (reportOf ms).unchanged ↔
      ∃ m ∈ keptOf ms, m.module = k := by
  unfold reportOf changedOf
  dsimp only
  simp only [List.mem_map, List.mem_filter]
  constructor
  · rintro (⟨m, ⟨hm, -⟩, hk⟩ | ⟨m, ⟨hm, -⟩, hk⟩)
    · exact ⟨m, hm, hk⟩
    · exact ⟨m, hm, hk⟩
  · rintro ⟨m, hm, hk⟩
    cases hchanged : m.changed with
    | true => exact .inl ⟨m, ⟨hm, hchanged⟩, hk⟩
    | false => exact .inr ⟨m, ⟨hm, by rw [hchanged]; rfl⟩, hk⟩

/-- The `qmldir` files do not depend on what has changed. -/
theorem foldl_addQmldir_unchanged (ms : List Settled) (dirs : SortedMap (List Component) Qmldir) :
    (ms.map unchanged).foldl addQmldir dirs = ms.foldl addQmldir dirs := by
  rw [List.foldl_map]
  rfl

/-- **The modules with entries are the same when they are settled again.** -/
theorem Leaves.keptOf_rest {registrations : List Registration} {ms : List Settled} {v : FileTree}
    (h : Leaves s d ms t u) (hsettled : SettledTypes s d registrations files stale t v ms)
    {ks : List QmlModule} (hsorted : ks.Pairwise fun a b => compare a b = .lt)
    (hmem : ∀ k, k ∈ ks ↔ IsListed u s.outDir d k) :
    keptOf (ks.map (s.restOf u)) = (keptOf ms).map unchanged := by
  have hsame : ks.filter (fun k => !(s.entriesOf u k).isEmpty) = (keptOf ms).map (·.module) := by
    refine eq_of_pairwise_lt (hsorted.filter _) (List.pairwise_map.2 (hsettled.sorted.filter _))
      fun k => ?_
    rw [List.mem_filter, hmem, List.mem_map, h.exists_mem_keptOf hsettled]
    constructor
    · rintro ⟨hlisted, hne⟩
      obtain ⟨m, hm, rfl⟩ := h.exists_of_isListed hsettled hlisted
      exact ⟨hsettled.wellNamed m hm, by simpa using hne⟩
    · rintro ⟨hk, hne⟩
      refine ⟨?_, by simpa using hne⟩
      by_contra hnot
      exact hne (entriesOf_eq_nil h.change.ground hk hnot)
  have hfilter : keptOf (ks.map (s.restOf u)) =
      (ks.filter fun k => !(s.entriesOf u k).isEmpty).map (s.restOf u) := by
    have hentries : (fun m : Settled => !m.entries.isEmpty) ∘ s.restOf u =
        fun k => !(s.entriesOf u k).isEmpty :=
      funext fun k => by simp only [Function.comp_apply, restOf]
    unfold keptOf
    rw [List.filter_map, hentries]
  rw [hfilter, hsame, List.map_map]
  refine List.map_congr_left fun m hm => ?_
  obtain ⟨hm, -⟩ := mem_keptOf.1 hm
  unfold restOf unchanged
  rw [Function.comp_apply, h.entries m hm, ← (hsettled.named hm).2]

/-! ## Replacing the `qmldir` files again -/

section Replaces

variable {x : FileTree} {dirs : List Qmldir}

/-- **The same `qmldir` files leave all files as they were.** -/
theorem Replaces.contentAt?_eq (h : Replaces s d dirs x t) (h' : Replaces s d dirs t u)
    (q : Place) : u.contentAt? q = t.contentAt? q := by
  by_cases hq : IsQmldir d q
  · obtain ⟨ns, rfl⟩ := hq
    by_cases hnames : ∀ n ∈ ns, IsName n
    · by_cases hdir : ∃ r ∈ dirs, r.directory = joins s.outDir ns
      · obtain ⟨r, hr, hdir⟩ := hdir
        obtain ⟨-, a, ha⟩ := h.written r hr ns ⟨hnames, hdir⟩
        obtain ⟨-, b, hb⟩ := h'.written r hr ns ⟨hnames, hdir⟩
        unfold contentAt?
        rw [ha, hb]
      · have hnone : ∀ r ∈ dirs, r.directory ≠ joins s.outDir ns := fun r hr he =>
          hdir ⟨r, hr, he⟩
        refine contentAt?_of_at?_eq (h'.kept ns hnames hnone fun hfound => ?_)
        obtain ⟨r, hr, hbelow⟩ := h.exists_of_isFound hnames hfound
        exact hnone r hr hbelow.2
    · have hnone : ∀ {v : FileTree}, Ground v s.outDir d → v.at? (qmldirAt d ns) = none := by
        intro v hv
        cases he : v.at? (qmldirAt d ns) with
        | none => rfl
        | some e =>
          refine absurd (fun n hn => (hv.names (Option.isSome_iff_exists.2 ⟨e, he⟩) n ?_).1) hnames
          exact List.mem_append_left _ hn
      exact contentAt?_of_at?_eq
        ((hnone h'.change.ground).trans (hnone h.change.ground).symm)
  · unfold contentAt?
    rcases h'.change.kept q hq with he | ⟨hnone, time, he⟩
    · rw [he]
    · rw [he, hnone]

end Replaces

/-! ## Input files that stay given -/

/-- Files whose paths are those of places that a refresh does not write to. -/
def AreSources (d : Place) (t : FileTree) (files : PathSet) : Prop :=
  ∀ cs, files.contains cs = true →
    ∃ q e, cs = (pathOf q).components ∧ t.at? q = some e ∧ IsPlain e ∧ ¬ IsOutput d q

/-- The directory that input files are relative to stays what it is. -/
theorem base_of_change (h : Ground t s.outDir d) (hc : Change s.outDir d (IsOutput d) t u)
    (hbase : t.isDirectory (s.relativeTo.getD (pathOf t.current)) = true) :
    s.base u = s.base t := by
  obtain ⟨htext, c, hreach⟩ := isDirectory_iff.1 hbase
  obtain ⟨hplace, hdir⟩ := (reaches_iff htext).1 hreach
  have hplace' := hc.place?_eq h (fun _ hq => hq.isBelow) hplace fun _ => hdir
  unfold base
  rw [hc.within.current, canonicalOr_of_place? hplace, canonicalOr_of_place? hplace']

/-- **The input files of sources stay given.** A path that leads to a source leads there for good,
and a path that leads nowhere can only come to lead to the place with its names. -/
theorem staysGiven_of_sources (h : Ground t s.outDir d)
    (hbase : t.isDirectory (s.relativeTo.getD (pathOf t.current)) = true)
    (hfiles : AreSources d t files) (e : TypesEntry) : s.StaysGiven d files t e := by
  intro v u hbefore hafter hgiven
  unfold TypesEntry.resolvedInput at hgiven ⊢
  rw [base_of_change h (hbefore.trans hafter) hbase]
  generalize (s.base t).join e.inputFile = x at hgiven ⊢
  obtain ⟨q, entry, hq, hat, hplain, hout⟩ := hfiles _ hgiven
  have hatv := hbefore.at?_of_some hout hat
  have hatu := hafter.at?_of_some hout hatv
  have hdownv := hbefore.ground.leadsDown hatv hplain
  have hdownu := hafter.ground.leadsDown hatu hplain
  have hnames : ∀ n ∈ q, IsName n := fun n hn => (hdownv.named n hn).1
  have hcontains : files.contains (pathOf q).components = true := hq ▸ hgiven
  cases hx : v.place? x with
  | ok r =>
    rw [canonicalOr_of_place? hx] at hq
    obtain ⟨e', he', hplain'⟩ := hbefore.ground.isTree.exists_of_place? hx
    have hdown := hbefore.ground.leadsDown he' hplain'
    obtain rfl := pathOf_injective (fun n hn => (hdown.named n hn).1) hnames hq
    have hx' := hafter.place?_eq hbefore.ground (fun _ hr => hr.isBelow) hx fun hr => absurd hr hout
    rw [canonicalOr_of_place? hx']
    exact hcontains
  | error cause =>
    rw [canonicalOr_of_error hx] at hq
    cases hx' : u.place? x with
    | ok r =>
      rw [canonicalOr_of_place? hx', hdownu.eq_of_place? hq hx']
      exact hcontains
    | error cause' =>
      rw [canonicalOr_of_error hx']
      unfold PathSet.has
      rwa [hq]

/-- **No entry is left whose input file leads elsewhere** before the refresh. -/
theorem has_of_mem_entriesOf_refresh {registrations : List Registration} {report : RefreshReport}
    {e : TypesEntry} {q : Place}
    (h : Ground w.tree s.outDir d) (htext : textError? s.outDir = none)
    (hlaw : s.registrar.OnlyWritesOutputs) (hdots : HasPlainDots w.tree d)
    (hregs : ∀ r ∈ registrations, r.module.IsWellNamed)
    (hrun : w.run (s.refresh registrations files stale) = (.ok report, w')) (hk : k.IsWellNamed)
    (he : e ∈ s.entriesOf w'.tree k)
    (hplace : w.tree.place? ((s.base w.tree).join e.inputFile) = .ok q) (hq : ¬ IsOutput d q) :
    files.has (pathOf q) = true := by
  obtain ⟨metatypes, ms, v, x, -, -, rfl, hsettled, hleaves, -⟩ :=
    leaves_of_run_refresh h htext hlaw hdots hregs hrun
  obtain ⟨m, hm, rfl⟩ :=
    (hleaves.exists_mem_keptOf hsettled).2 ⟨hk, List.ne_nil_of_mem he⟩
  obtain ⟨hm, -⟩ := mem_keptOf.1 hm
  rw [hleaves.entries m hm] at he
  obtain ⟨y, hbefore, -, -, hgiven⟩ := (hsettled.settled m hm).merged
  have hthere := hbefore.place?_eq h (fun _ ⟨_, hr⟩ => hr.isBelow) hplace
    fun hr => absurd (.inl hr) hq
  have hhas := hgiven e he
  unfold TypesEntry.resolvedInput at hhas
  rwa [canonicalOr_of_place? hthere] at hhas

/-! ## The second refresh -/

/-- **A refresh that is repeated changes nothing.** After a refresh that succeeds, another one
without registrations and stale files succeeds, runs no registrar, reports the modules with entries
as unchanged, and leaves all files as they are. -/
theorem refresh_again (s : Stubs) (d : Place) (files stale : PathSet)
    (registrations : List Registration) (w w' : Workbench) (report : RefreshReport)
    (h : Ground w.tree s.outDir d) (htext : textError? s.outDir = none)
    (hlaw : s.registrar.OnlyWritesOutputs) (hdots : HasPlainDots w.tree d)
    (hregs : ∀ r ∈ registrations, r.module.IsWellNamed)
    (hinputs : ∀ k : QmlModule, k.IsWellNamed →
      ∀ e ∈ s.entriesOf w.tree k ++ s.freshOf (s.base w.tree) registrations k,
        s.StaysGiven d files w.tree e)
    (hrun : w.run (s.refresh registrations files stale) = (.ok report, w')) :
    ∃ again w'', w'.run (s.refresh [] files .empty) = (.ok again, w'') ∧ again.regenerated = [] ∧
      w''.calls = w'.calls ∧
      (∀ k, k ∈ again.unchanged ↔ k.IsWellNamed ∧ s.entriesOf w'.tree k ≠ []) ∧
      (∀ k, k ∈ again.unchanged ↔ k ∈ report.regenerated ∨ k ∈ report.unchanged) ∧
      ∀ q, w''.tree.contentAt? q = w'.tree.contentAt? q := by
  obtain ⟨metatypes, ms, v, x, hsettle, -, rfl, hsettled, hleaves, hrest, -⟩ :=
    leaves_of_run_refresh h htext hlaw hdots hregs hrun
  have hground := hleaves.change.ground
  -- The modules are at rest, so the first two phases do nothing.
  have hrests : ∀ k, IsListed w'.tree s.outDir d k → Rests s d files w'.tree k := by
    intro k hk
    obtain ⟨m, hm, rfl⟩ := hleaves.exists_of_isListed hsettled hk
    exact hleaves.rests hsettled hrest hinputs hm
  obtain ⟨metatypes', ks, hsettle', hsorted, hmem⟩ :=
    run_settleAll_again hground htext (isSome_of_run_settleAll hsettle) hrests
  have hkept := hleaves.keptOf_rest hsettled hsorted hmem
  have hchanged := changedOf_rest s w'.tree ks
  have hdirs : qmldirsOf (ks.map (s.restOf w'.tree)) = qmldirsOf ms := by
    unfold qmldirsOf
    rw [hkept, foldl_addQmldir_unchanged]
  -- The last phase replaces the files by the same ones.
  obtain ⟨y, -, hreplaced⟩ := hleaves.replaced
  have hbelow : ∀ q ∈ qmldirsOf ms, ∃ ns, IsQmldirBelow s.outDir ns q ∧
      w'.tree.isDirectoryAt (d ++ ns) = true := by
    intro q hq
    obtain ⟨m, hm, -, hbelow⟩ := hsettled.isQmldirBelow hq
    exact ⟨m.module.parts, hbelow, (hleaves.made m (mem_keptOf.1 hm).1).2⟩
  obtain ⟨u, hreplace⟩ := hreplaced.run_again htext hbelow
  have hreplaced' := hsettled.replaces hground htext hreplace
  refine ⟨reportOf (ks.map (s.restOf w'.tree)), { w' with tree := u }, ?_, ?_, rfl, ?_, ?_,
    hreplaced.contentAt?_eq hreplaced'⟩
  · rw [refresh_eq, run_bind, hsettle']
    dsimp only
    have hnone : w'.run (([] : List Settled).forM (s.generate (foreignTypes metatypes'
        (ks.map (s.restOf w'.tree))))) = (.ok (), w') := rfl
    rw [hchanged, hdirs, run_bind, hnone]
    dsimp only
    rw [run_bind, hreplace]
    rfl
  · unfold reportOf
    rw [hchanged]
    rfl
  · intro k
    rw [unchanged_reportOf hkept, List.mem_map, hleaves.exists_mem_keptOf hsettled]
  · intro k
    rw [unchanged_reportOf hkept, List.mem_map, mem_reportOf]

/-! ## Two sources -/

/-- Two sources, the registrar, and the output directory with some entries in it. -/
def sourcesTree (stubs : List (Place × Entry)) : FileTree where
  entries := .ofList ([(["a.py"], .file .empty ⟨100, 0⟩ false),
    (["b.py"], .file .empty ⟨100, 0⟩ false), (["r"], .file .empty ⟨100, 0⟩ true),
    (["o"], .directory ⟨100, 0⟩)] ++ stubs)
  current := []
  clock := ⟨200, 0⟩

/-- A refresh with registrations. -/
def refreshOnce (registrations : List Registration) (files stale : PathSet) (t : FileTree) :
    Except RefreshError RefreshReport × Workbench :=
  Workbench.run ⟨t, [], []⟩ (plainStubs.refresh registrations files stale)

/-- The refresh after it, without registrations. -/
def refreshTwice (registrations : List Registration) (files stale : PathSet) (t : FileTree) :
    Except RefreshError RefreshReport × Workbench :=
  (refreshOnce registrations files stale t).2.run (plainStubs.refresh [] files .empty)

/-- Both sources. -/
def bothSources : PathSet := .ofList [⟨"/a.py"⟩, ⟨"/b.py"⟩]

/-- A class from the first of them. -/
def oneRegistration : List Registration := [⟨⟨"u", 1, 0⟩, plainEntry "/a.py"⟩]

theorem site_sourcesTree : Site (sourcesTree []) plainStubs.outDir ["o"] :=
  .of_entries (by decide) (by decide) (by decide +kernel) (by decide) (by decide +kernel)

/-- What lies beside the output directory is no output. -/
theorem not_isOutput_of_head {n : String} (hn : n ≠ "o") : ¬ IsOutput ["o"] [n] := by
  intro h
  obtain ⟨ns, -, hq⟩ := h.isBelow
  exact hn (List.cons.inj hq).1

theorem areSources_bothSources : AreSources ["o"] (sourcesTree []) bothSources := by
  intro cs hcs
  obtain ⟨e, he, rfl⟩ := SortedMap.contains_ofList.1 hcs
  have hfound : ∀ p ∈ [(⟨"/a.py"⟩ : Path), ⟨"/b.py"⟩], ∃ n : String, n ≠ "o" ∧
      p.components = (pathOf [n]).components ∧
      ((sourcesTree []).at? [n]).any (fun e => decide (IsPlain e)) = true := by
    intro p hp
    rcases List.mem_cons.1 hp with rfl | hp
    · exact ⟨"a.py", by decide, by decide, by decide +kernel⟩
    · rw [List.mem_singleton.1 hp]
      exact ⟨"b.py", by decide, by decide, by decide +kernel⟩
  obtain ⟨p, hp, rfl⟩ := List.mem_map.1 he
  obtain ⟨n, hn, hcomponents, hany⟩ := hfound p hp
  obtain ⟨entry, hentry, hplain⟩ := (Option.any_eq_true _ _).1 hany
  exact ⟨[n], entry, hcomponents, hentry, of_decide_eq_true hplain, not_isOutput_of_head hn⟩

theorem refreshOnce_one :
    (refreshOnce oneRegistration bothSources bothSources (sourcesTree [])).1.toBool = true := by
  decide +kernel

/-- After a refresh with one class the second refresh changes nothing. -/
theorem one_refreshed_again : ∃ report w' again w'',
    refreshOnce oneRegistration bothSources bothSources (sourcesTree []) = (.ok report, w') ∧
    w'.run (plainStubs.refresh [] bothSources .empty) = (.ok again, w'') ∧
    again.regenerated = [] ∧ w''.calls = w'.calls ∧
    (∀ k, k ∈ again.unchanged ↔ k.IsWellNamed ∧ plainStubs.entriesOf w'.tree k ≠ []) ∧
    (∀ k, k ∈ again.unchanged ↔ k ∈ report.regenerated ∨ k ∈ report.unchanged) ∧
    ∀ q, w''.tree.contentAt? q = w'.tree.contentAt? q := by
  obtain ⟨report, hrun⟩ := exists_pair_of_toBool refreshOnce_one
  have hundotted : HasUndottedDirectories (sourcesTree []) ["o"] := .of_entries (by decide +kernel)
  have hnamed : ∀ r ∈ oneRegistration, r.module.IsWellNamed := by
    unfold QmlModule.IsWellNamed
    decide
  obtain ⟨again, w'', h⟩ := refresh_again plainStubs ["o"] bothSources bothSources oneRegistration
    ⟨sourcesTree [], [], []⟩ _ report site_sourcesTree.ground (by decide)
    (Registrar.onlyWritesOutputs_scripted _ _ _)
    (hasPlainDots_of_undotted site_sourcesTree.ground hundotted) hnamed
    (fun _ _ e _ => staysGiven_of_sources site_sourcesTree.ground (by decide)
      areSources_bothSources e) hrun
  exact ⟨report, _, again, w'', hrun, h⟩

/-- A directory of a module `u.`, which has the files of the module `u`. -/
def dottedStubs : List (Place × Entry) :=
  [(["o", "u."], .directory ⟨100, 0⟩),
    (["o", "u.", "types1-0.json"], .file "[]".toUTF8 ⟨100, 0⟩ false)]

theorem site_dottedStubs : Site (sourcesTree dottedStubs) plainStubs.outDir ["o"] :=
  .of_entries (by decide) (by decide) (by decide +kernel) (by decide) (by decide +kernel)

/-- After the first refresh the types file is gone. A `qmldir` file is there, which is gone after the
second one. -/
theorem refreshTwice_dotted :
    (refreshOnce oneRegistration bothSources bothSources (sourcesTree dottedStubs)).1.toBool = true ∧
    (TypesFile.read (refreshOnce oneRegistration bothSources bothSources
      (sourcesTree dottedStubs)).2.tree (plainStubs.typesPath ⟨"u", 1, 0⟩)).toOption = none ∧
    ((refreshOnce oneRegistration bothSources bothSources
      (sourcesTree dottedStubs)).2.tree.contentAt? ["o", "u", "qmldir"]).isSome = true ∧
    ((refreshTwice oneRegistration bothSources bothSources
      (sourcesTree dottedStubs)).2.tree.contentAt? ["o", "u", "qmldir"]).isSome = false := by
  decide +kernel

/-- A class from a path that runs through the directory of another one. -/
def windingRegistrations : List Registration :=
  [⟨⟨"u", 1, 0⟩, plainEntry "/o/v/../../b.py"⟩, ⟨⟨"v", 1, 0⟩, plainEntry "/a.py"⟩]

/-- The paths as they are registered. -/
def windingFiles : PathSet := .ofList [⟨"/o/v/../../b.py"⟩, ⟨"/a.py"⟩]

/-- After the first refresh the path leads to the other source, which is not given. -/
theorem refreshOnce_winding :
    let first := refreshOnce windingRegistrations windingFiles windingFiles (sourcesTree [])
    first.1.toBool = true ∧
      (first.2.tree.place? ((plainStubs.base first.2.tree).join "/o/v/../../b.py")).toOption =
        some ["b.py"] := by decide +kernel

/-- What follows a refresh of the winding path does not leave it. -/
theorem not_refreshTwice_winding {again : RefreshReport} {w' w'' : Workbench}
    (hground : Ground w'.tree plainStubs.outDir ["o"]) (hdots : HasPlainDots w'.tree ["o"])
    (he : plainEntry "/o/v/../../b.py" ∈ plainStubs.entriesOf w'.tree ⟨"u", 1, 0⟩)
    (hplace : w'.tree.place? ((plainStubs.base w'.tree).join "/o/v/../../b.py") = .ok ["b.py"])
    (hrun : w'.run (plainStubs.refresh [] windingFiles .empty) = (.ok again, w''))
    (hsame : ∀ q, w''.tree.contentAt? q = w'.tree.contentAt? q) : False := by
  have hlaw : plainStubs.registrar.OnlyWritesOutputs := Registrar.onlyWritesOutputs_scripted _ _ _
  obtain ⟨_, _, _, _, -, -, -, -, hleaves, -⟩ :=
    leaves_of_run_refresh hground (by decide) hlaw hdots (fun _ hr => absurd hr List.not_mem_nil) hrun
  rw [← entriesOf_of_contentAt?_eq hground hleaves.change.ground isWellNamed_u (hsame _)] at he
  have hhas := has_of_mem_entriesOf_refresh hground (by decide) hlaw hdots
    (fun _ hr => absurd hr List.not_mem_nil) hrun isWellNamed_u he hplace
    (not_isOutput_of_head (by decide))
  exact absurd hhas (by decide)

/-- **A second refresh may change files**: when a directory has the name of a module and a dot, and
when an input file is reached through a directory that the first refresh makes. -/
theorem second_refresh_differs : plainStubs.registrar.OnlyWritesOutputs ∧
    (Site (sourcesTree dottedStubs) plainStubs.outDir ["o"] ∧
      (∀ r ∈ oneRegistration, r.module.IsWellNamed) ∧
      ∃ report w', refreshOnce oneRegistration bothSources bothSources (sourcesTree dottedStubs) =
          (.ok report, w') ∧
        ¬ ∃ again w'', w'.run (plainStubs.refresh [] bothSources .empty) = (.ok again, w'') ∧
          ∀ q, w''.tree.contentAt? q = w'.tree.contentAt? q) ∧
    Site (sourcesTree []) plainStubs.outDir ["o"] ∧
      (∀ r ∈ windingRegistrations, r.module.IsWellNamed) ∧
      ∃ report w', refreshOnce windingRegistrations windingFiles windingFiles (sourcesTree []) =
          (.ok report, w') ∧
        ¬ ∃ again w'', w'.run (plainStubs.refresh [] windingFiles .empty) = (.ok again, w'') ∧
          ∀ q, w''.tree.contentAt? q = w'.tree.contentAt? q := by
  have hnamed : (∀ r ∈ oneRegistration, r.module.IsWellNamed) ∧
      ∀ r ∈ windingRegistrations, r.module.IsWellNamed := by
    unfold QmlModule.IsWellNamed
    decide
  refine ⟨Registrar.onlyWritesOutputs_scripted _ _ _, ⟨site_dottedStubs, hnamed.1, ?_⟩,
    site_sourcesTree, hnamed.2, ?_⟩
  · obtain ⟨hfirst, -, hthere, hgone⟩ := refreshTwice_dotted
    obtain ⟨report, hrun⟩ := exists_pair_of_toBool hfirst
    refine ⟨report, _, hrun, ?_⟩
    rintro ⟨again, w'', hagain, hsame⟩
    have hsecond : (refreshTwice oneRegistration bothSources bothSources
        (sourcesTree dottedStubs)).2 = w'' := congrArg Prod.snd hagain
    rw [hsecond, hsame, hthere] at hgone
    exact absurd hgone (by simp)
  · obtain ⟨hfirst, hplace⟩ := refreshOnce_winding
    obtain ⟨report, hrun⟩ := exists_pair_of_toBool hfirst
    refine ⟨report, _, hrun, ?_⟩
    rintro ⟨again, w'', hagain, hsame⟩
    have hundotted : HasUndottedDirectories (sourcesTree []) ["o"] := .of_entries (by decide +kernel)
    have hdots := hasPlainDots_of_undotted site_sourcesTree.ground hundotted
    have hlaw : plainStubs.registrar.OnlyWritesOutputs := Registrar.onlyWritesOutputs_scripted _ _ _
    obtain ⟨_, _, _, _, -, -, -, -, hleaves, -⟩ :=
      leaves_of_run_refresh site_sourcesTree.ground (by decide) hlaw hdots hnamed.2 hrun
    obtain ⟨-, -, hall⟩ :=
      entriesOf_refresh site_sourcesTree.ground (by decide) hlaw hdots hnamed.2 hrun
    obtain ⟨v, -, hentries, -⟩ := hall ⟨"u", 1, 0⟩ isWellNamed_u
    refine not_refreshTwice_winding hleaves.change.ground
      (hasPlainDots_of_undotted hleaves.change.ground (hundotted.of_change hleaves.change)) ?_
      (ok_of_toOption hplace) hagain hsame
    rw [hentries, merge, List.mem_mergeSort]
    exact List.mem_append_right _ (List.mem_singleton.2 rfl)

end Stubs

end QmlStubs
