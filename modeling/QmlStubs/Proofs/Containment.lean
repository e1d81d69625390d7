import QmlStubs.Proofs.SideBySide
import QmlStubs.Proofs.TypesLaw

/-!
# What a refresh may change

A module's directory is joined from the parts of its name, and a part that starts with a slash stands
for itself, wherever the output directory is. So a module is only below the output directory if none
of its parts does (`QmlModule.IsInside`), and the directory of any other one does not depend on the
output directory at all (`QmlModule.directoryIn_eq_of_not_isInside`). Modules that types files are
named for are always inside. So

> **if the registered modules are inside, a refresh changes nothing but what lies below the output
> directory** (`Stubs.within_refresh`), whatever else their names are and wherever the refresh ends.

The output directory is there and has no links below it. `DiffersBelow` is the invariant that each
step keeps, and the phases are put together with `Workbench.keeps_bind`.
-/

set_option autoImplicit false

namespace QmlStubs

open FileTree

/-- A relative path is the only one that depends on what it is behind. -/
theorem Path.join_of_absolute {x : String} (hx : x.toList.head? = some '/') (p : Path) :
    p.join x = ⟨x⟩ := by
  unfold Path.join
  rw [if_pos hx]

/-- **A module that is not inside has the same directory, whatever the output directory is.** -/
theorem QmlModule.directoryIn_eq_of_not_isInside {k : QmlModule} (hk : ¬ k.IsInside) (p q : Path) :
    k.directoryIn p = k.directoryIn q := by
  unfold IsInside at hk
  rw [directoryIn_eq, directoryIn_eq]
  generalize k.parts = parts at hk
  induction parts generalizing p q with
  | nil => exact absurd nofun hk
  | cons part parts ih =>
    show joins (p.join part) parts = joins (q.join part) parts
    by_cases hpart : part.toList.head? = some '/'
    -- all that comes before this part is dropped
    · rw [Path.join_of_absolute hpart, Path.join_of_absolute hpart]
    · exact ih _ _ fun hparts => hk (List.forall_mem_cons.2 ⟨hpart, hparts⟩)

namespace FileTree

variable {t u v : FileTree} {p : Path} {c d : Place} {n : String} {k : QmlModule}

/-! ## Edits below a site -/

/-- A tree that differs from another one below a site alone, and has the site as well. -/
structure DiffersBelow (p : Path) (d : Place) (t u : FileTree) : Prop where
  ground : Ground u p d
  within : Within d t u

theorem DiffersBelow.refl (h : Ground t p d) : DiffersBelow p d t t := ⟨h, .refl d t⟩

theorem DiffersBelow.trans (h : DiffersBelow p d t u) (h' : DiffersBelow p d u v) :
    DiffersBelow p d t v := ⟨h'.ground, h.within.trans h'.within⟩

theorem Change.differsBelow {touched : Place → Prop} (h : Change p d touched t u) :
    DiffersBelow p d t u := ⟨h.ground, h.within⟩

namespace Ground

/-- The directory of a module that is inside lies below the site. -/
theorem exists_of_reaches_directoryIn (h : Ground t p d) (hk : k.IsInside)
    (hc : Reaches t (k.directoryIn p) c) : ∃ ns, c = d ++ ns :=
  IsReached.exists_of_reaches ⟨h.direct.ne_empty, h.reaches⟩ h.plain hk hc

theorem differsBelow_editBy (h : Ground t p d) {f : FileTree → Except FileError FileTree}
    (hf : ∀ u, f t = .ok u → DiffersBelow p d t u) : DiffersBelow p d t (t.run (editBy f)).2 := by
  rw [run_editBy]
  cases hu : f t with
  | ok u => exact hf u hu
  | error e => exact .refl h

/-- The directory of a module is made below the site, -/
theorem differsBelow_makeDirectories (h : Ground t p d) (hk : k.IsInside) :
    DiffersBelow p d t (t.run (makeDirectories (k.directoryIn p))).2 := by
  obtain ⟨ns, hsteps, hcomponents, habsolute, hns⟩ := hk.exists_downs h.direct.ne_empty
  have hne : (k.directoryIn p).text ≠ "" := by
    intro he
    have hnil : (k.directoryIn p).components = [] := by
      unfold Path.components
      rw [he]
      rfl
    rw [hcomponents] at hnil
    exact components_ne_nil h.direct (List.append_eq_nil_iff.1 hnil).1
  have hdeep := h.deepened_makeDirectories_of_steps hns hne habsolute hcomponents hsteps
  exact ⟨hdeep.ground, hdeep.within⟩

/-- a file in it is written there, -/
theorem differsBelow_write (h : Ground t p d) (hk : k.IsInside) (hn : IsName n)
    (content : ByteArray) :
    DiffersBelow p d t (t.run (write ((k.directoryIn p).join n) content)).2 := by
  refine h.differsBelow_editBy fun u hu => ?_
  have hrun : t.run (write ((k.directoryIn p).join n) content) = (.ok (), u) := by
    unfold write
    rw [run_editBy, hu]
  -- it may be written to by any path, but its directory is some steps down from the site
  obtain ⟨hfits, c, hc, hfree⟩ := of_run_write_join hn hrun
  obtain ⟨ns, rfl⟩ := h.exists_of_reaches_directoryIn hk hc
  have hw : Writable t (d ++ ns ++ [n]) := by
    rw [List.append_assoc] at hfree ⊢
    exact h.writable (by simp) hfree
  obtain ⟨x, hput⟩ := run_write_join hn hfits hc hw content
  obtain rfl := (Prod.mk.inj (hrun.symm.trans hput)).2
  refine ⟨h.put hc.isDirectory hn hfits.short hfree nofun, ?_⟩
  rw [List.append_assoc]
  exact .put (by simp) _

/-- and a file in it is removed there. -/
theorem differsBelow_removeIfPresent (h : Ground t p d) (hk : k.IsInside) (hn : IsName n) :
    DiffersBelow p d t (t.run (removeIfPresent ((k.directoryIn p).join n))).2 := by
  refine h.differsBelow_editBy fun u hu => ?_
  split at hu
  next => exact Except.ok.inj hu ▸ .refl h
  next =>
    obtain ⟨c, hc, hfree, rfl⟩ := of_withoutFile?_join hn hu
    obtain ⟨ns, rfl⟩ := h.exists_of_reaches_directoryIn hk hc
    exact (h.change_cut hfree).differsBelow

end Ground

end FileTree

namespace Stubs

open Workbench

variable {s : Stubs} {w w' : Workbench} {t : FileTree} {d : Place} {k : QmlModule}
variable {base : Path} {files clean stale : PathSet} {m : Settled} {ms : List Settled}
variable {registrations : List Registration} {metatypes : List Path}

/-! ## The phases -/

theorem differsBelow_edit {e : Edit} {wrap : FileError → RefreshError}
    (h : DiffersBelow s.outDir d t w.tree)
    (he : ∀ u, Ground u s.outDir d → DiffersBelow s.outDir d u (u.run e).2) :
    DiffersBelow s.outDir d t (w.run (edit e wrap)).2.tree := by
  rw [tree_run_edit]
  exact h.trans (he w.tree h.ground)

theorem snd_run_formerEntries (p : Path) : (w.run (formerEntries p)).2 = w := by
  unfold formerEntries
  rw [run_get_bind]
  dsimp only
  split
  · split <;> rfl
  · rfl

theorem removeFiles_eq (k : QmlModule) (p : Path) : removeFiles k p =
    k.fileNames.forM fun n => edit (removeIfPresent (p.join n)) .file := rfl

/-- **Settling a module changes what is below the output directory**, wherever it ends. -/
theorem differsBelow_settle (h : DiffersBelow s.outDir d t w.tree) (hk : k.IsInside) (fresh : Fresh) :
    DiffersBelow s.outDir d t (w.run (s.settle base files clean fresh k)).2.tree := by
  unfold settle
  dsimp only
  refine keeps_bind (DiffersBelow s.outDir d t)
    (differsBelow_edit h fun u hu => hu.differsBelow_makeDirectories hk) fun _ v _ hv => ?_
  refine keeps_bind (DiffersBelow s.outDir d t) ?_ fun former x _ hx => ?_
  · rwa [snd_run_formerEntries]
  rw [run_get_bind]
  split
  next =>
    rw [Workbench.run_throw]
    exact hx
  next =>
    split
    next =>
      refine keeps_bind (DiffersBelow s.outDir d t) ?_ fun _ _ _ hy => hy
      rw [removeFiles_eq]
      apply keeps_forM (DiffersBelow s.outDir d t) hx
      intro n hn y hy
      refine differsBelow_edit hy fun u hu => ?_
      exact hu.differsBelow_removeIfPresent hk (QmlModule.isName_of_mem_fileNames hn)
    next =>
      split
      next => exact hx
      next =>
        refine keeps_bind (DiffersBelow s.outDir d t) ?_ fun _ _ _ hy => hy
        unfold TypesFile.write writeText
        exact differsBelow_edit hx fun u hu => hu.differsBelow_write hk k.isName_typesFileName _

/-- What is settled is the module, in its directory. -/
theorem eq_of_run_settle {fresh : Fresh}
    (hrun : w.run (s.settle base files clean fresh k) = (.ok m, w')) :
    m.module = k ∧ m.directory = k.directoryIn s.outDir := by
  unfold settle at hrun
  obtain ⟨_, v, -, hrun⟩ := ok_of_run_bind hrun
  obtain ⟨former, x, -, hrun⟩ := ok_of_run_bind hrun
  have hrun := ok_of_run_get hrun
  dsimp only at hrun
  split at hrun
  next => exact absurd hrun run_throw_ne
  next =>
    split at hrun
    next =>
      obtain ⟨_, y, -, hrun⟩ := ok_of_run_bind hrun
      obtain ⟨rfl, -⟩ := eq_of_run_pure hrun
      exact ⟨rfl, rfl⟩
    next =>
      split at hrun
      next =>
        obtain ⟨rfl, -⟩ := eq_of_run_pure hrun
        exact ⟨rfl, rfl⟩
      next =>
        obtain ⟨_, y, -, hrun⟩ := ok_of_run_bind hrun
        obtain ⟨rfl, -⟩ := eq_of_run_pure hrun
        exact ⟨rfl, rfl⟩

/-- **The modules that are looked at are inside** if the registered ones are. -/
theorem isInside_of_mem_collected (htext : s.outDir.text ≠ "")
    (hregs : ∀ r ∈ registrations, r.module.IsInside) (hk : k ∈ s.collected t registrations) :
    k.IsInside := by
  rcases mem_collected.1 hk with ⟨p, -, hp⟩ | ⟨r, hr, rfl⟩
  · exact isInside_of_ofTypesPath? htext hp
  · exact hregs r hr

/-- The first phase changes what is below the output directory. -/
theorem differsBelow_settleAll (h : DiffersBelow s.outDir d t w.tree)
    (hregs : ∀ r ∈ registrations, r.module.IsInside) :
    DiffersBelow s.outDir d t (w.run (s.settleAll registrations files stale)).2.tree := by
  have hglob : ∀ {p : Path} {pattern : String} {v : Workbench}, (v.run (glob p pattern)).2 = v := by
    intro p pattern v
    unfold glob
    rw [run_get_bind]
    split <;> rfl
  unfold settleAll
  rw [run_get_bind]
  dsimp only
  refine keeps_bind (DiffersBelow s.outDir d t) ?_ fun fresh v hgroup hv => ?_
  · cases s.group (s.base w.tree) registrations <;> exact h
  obtain ⟨hgroup, rfl⟩ := of_run_group hgroup
  refine keeps_bind (DiffersBelow s.outDir d t) ?_ fun ks x hmodules _ => ?_
  · unfold modules
    exact keeps_bind (DiffersBelow s.outDir d t) (by rwa [hglob]) fun _ _ _ hx => hx
  obtain ⟨rfl, rfl⟩ := of_run_modules (fun k => (find?_group hgroup k).2) hmodules
  -- grouping and searching have changed nothing, so the modules are those of the tree at the start
  refine keeps_bind (DiffersBelow s.outDir d t) (by rwa [hglob]) fun _ y _ hy => ?_
  refine keeps_bind (DiffersBelow s.outDir d t) ?_ fun _ _ _ hz => hz
  exact keeps_mapM (DiffersBelow s.outDir d t) hy fun k hk z hz =>
    differsBelow_settle hz (isInside_of_mem_collected h.ground.direct.ne_empty hregs hk) fresh

/-- The settled modules are inside, each in its directory. -/
theorem isInside_of_run_settleAll (htext : s.outDir.text ≠ "")
    (hregs : ∀ r ∈ registrations, r.module.IsInside)
    (hrun : w.run (s.settleAll registrations files stale) = (.ok (metatypes, ms), w')) :
    ∀ m ∈ ms, m.module.IsInside ∧ m.directory = m.module.directoryIn s.outDir := by
  obtain ⟨fresh, -, hsettle⟩ := exists_of_run_settleAll hrun
  refine forall_of_run_mapM (fun k hk v v' m hm => ?_) hsettle
  obtain ⟨rfl, hdir⟩ := eq_of_run_settle hm
  exact ⟨isInside_of_mem_collected htext hregs hk, hdir⟩

/-- The registrar changes what is below the output directory. -/
theorem differsBelow_generate (hlaw : s.registrar.OnlyWritesOutputs)
    (h : DiffersBelow s.outDir d t w.tree) (hk : m.module.IsInside)
    (hdir : m.directory = m.module.directoryIn s.outDir) (foreign : List Path) :
    DiffersBelow s.outDir d t (w.run (s.generate foreign m)).2.tree :=
  keeps_generate hlaw foreign _ h fun _ hn _ content hu => hu.trans
    (hdir ▸ hu.ground.differsBelow_write hk (QmlModule.isName_of_mem_otherNames hn) content)

/-- Replacing the `qmldir` files changes what is below the output directory. -/
theorem differsBelow_replaceQmldirs (h : DiffersBelow s.outDir d t w.tree)
    (htext : textError? s.outDir = none) {dirs : List Qmldir}
    (hdirs : ∀ q ∈ dirs, ∃ k : QmlModule, k.IsInside ∧ q.directory = k.directoryIn s.outDir) :
    DiffersBelow s.outDir d t (w.run (s.replaceQmldirs dirs)).2.tree := by
  obtain ⟨paths, hglob, hremoved⟩ := change_removeQmldirs h.ground htext
  unfold replaceQmldirs
  rw [run_bind, hglob]
  refine keeps_bind (DiffersBelow s.outDir d t) (h.trans hremoved.differsBelow) fun _ v _ hv => ?_
  refine keeps_forM (DiffersBelow s.outDir d t) hv fun q hq x hx => ?_
  obtain ⟨k, hk, hdir⟩ := hdirs q hq
  rw [Qmldir.path, hdir, writeText]
  exact differsBelow_edit hx fun u hu => hu.differsBelow_write hk QmlModule.isName_qmldir _

/-! ## The refresh -/

/-- **A refresh changes nothing but what lies below its output directory**, wherever it ends, if no
part of the name of a registered module starts with a slash. -/
theorem within_refresh (h : Ground w.tree s.outDir d) (htext : textError? s.outDir = none)
    (hlaw : s.registrar.OnlyWritesOutputs) (hregs : ∀ r ∈ registrations, r.module.IsInside) :
    Within d w.tree (w.run (s.refresh registrations files stale)).2.tree := by
  suffices hall : DiffersBelow s.outDir d w.tree
      (w.run (s.refresh registrations files stale)).2.tree from hall.within
  rw [refresh_eq]
  refine keeps_bind (DiffersBelow s.outDir d w.tree) (differsBelow_settleAll (.refl h) hregs)
    fun ⟨metatypes, ms⟩ v hsettle hv => ?_
  have hinside := isInside_of_run_settleAll h.direct.ne_empty hregs hsettle
  refine keeps_bind (DiffersBelow s.outDir d w.tree) ?_ fun _ x _ hx => ?_
  · refine keeps_forM (DiffersBelow s.outDir d w.tree) hv fun m hm x hx => ?_
    obtain ⟨hm, -⟩ := mem_changedOf.1 hm
    exact differsBelow_generate hlaw hx (hinside m hm).1 (hinside m hm).2 _
  refine keeps_bind (DiffersBelow s.outDir d w.tree) ?_ fun _ _ _ hy => hy
  -- a `qmldir` file lies in the directory of a settled module
  refine differsBelow_replaceQmldirs hx htext fun q hq => ?_
  obtain ⟨⟨m, hm, hdir, -⟩, -⟩ := of_mem_qmldirsOf hq
  obtain ⟨hk, hmdir⟩ := hinside m (mem_keptOf.1 hm).1
  exact ⟨m.module, hk, hdir.trans hmdir⟩

end Stubs

end QmlStubs
