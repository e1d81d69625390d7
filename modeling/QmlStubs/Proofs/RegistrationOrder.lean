import QmlStubs.Proofs.TypesLaw

/-!
# The order of registrations

Registrations come in the order in which modules were imported, which follows the order of the files
and what they import first. A refresh groups them by QML module and sorts the entries of each module
by their first classes. The sort keeps entries with equal classes in the order in which they came,
so the order shows in a types file exactly through such entries. Where there are none

> **permuted registrations have the same outcome**: the report, the runs of the registrar, and the
> tree (`Stubs.refresh_of_perm`).

Nothing is asked of the tree or of the names of modules. Each module is settled in the same tree in
both runs, so what it finds there is the same, also if it has its types file in common with another.
-/

set_option autoImplicit false

namespace QmlStubs

open FileTree

namespace Stubs

open Workbench

variable {s : Stubs} {w w' : Workbench} {t : FileTree} {k : QmlModule} {base : Path}
variable {files clean stale : PathSet} {known known' : Fresh} {m : Settled} {ms : List Settled}
variable {registrations registrations' : List Registration} {report : RefreshReport}

/-! ## Grouping -/

/-- Grouping can only fail at a single registration. -/
theorem exists_group_iff : (∃ fresh, s.group base registrations = .ok fresh) ↔
    ∀ r ∈ registrations, ∃ e, s.relativeEntry base r.entry = .ok e := by
  unfold group
  generalize (SortedMap.empty : Fresh) = known
  induction registrations generalizing known with
  | nil => simp [pure, Except.pure]
  | cons r rest ih =>
    have hadd : s.addRegistration base known r = (s.relativeEntry base r.entry).map fun e =>
        known.insert r.module ((known.find? r.module).getD [] ++ [e]) := by
      unfold addRegistration
      cases s.relativeEntry base r.entry <;> rfl
    rw [List.foldlM_cons, List.forall_mem_cons, hadd]
    cases s.relativeEntry base r.entry with
    | error cause => simp [bind, Except.bind, Except.map]
    | ok e => simpa [bind, Except.bind, Except.map] using ih _

theorem freshOf_perm (h : registrations.Perm registrations') (base : Path) (k : QmlModule) :
    (s.freshOf base registrations k).Perm (s.freshOf base registrations' k) :=
  (h.filter _).filterMap _

/-- The same modules have fresh entries, and each has the same ones up to their order. -/
structure AreReordered (known known' : Fresh) : Prop where
  keys : known'.keys = known.keys
  perm : ∀ k, ((known.find? k).getD []).Perm ((known'.find? k).getD [])

theorem exists_group_of_perm (h : registrations.Perm registrations')
    (hgroup : s.group base registrations = .ok known) :
    ∃ known', s.group base registrations' = .ok known' ∧ AreReordered known known' := by
  obtain ⟨known', hgroup'⟩ := exists_group_iff.2 fun r hr =>
    exists_group_iff.1 ⟨known, hgroup⟩ r (h.mem_iff.2 hr)
  refine ⟨known', hgroup', ?_, ?_⟩
  · apply eq_of_pairwise_lt (SortedMap.keys_pairwise _) (SortedMap.keys_pairwise _)
    intro k
    rw [SortedMap.mem_keys, SortedMap.mem_keys, (find?_group hgroup k).2, (find?_group hgroup' k).2]
    simp only [h.mem_iff]
  · intro k
    rw [(find?_group hgroup k).1, (find?_group hgroup' k).1]
    exact freshOf_perm h base k

/-! ## Merging -/

/-- **Sorting does not see the order of entries with different first classes.** -/
theorem merge_of_perm {former fresh fresh' : List TypesEntry} (h : fresh.Perm fresh')
    (hdistinct : ((merge t base clean former fresh).map (·.sortKey)).Nodup) :
    merge t base clean former fresh' = merge t base clean former fresh := by
  have hperm : (merge t base clean former fresh').Perm (merge t base clean former fresh) := by
    unfold merge
    exact ((List.mergeSort_perm ..).trans (h.symm.append_left _)).trans (List.mergeSort_perm ..).symm
  refine List.Perm.eq_of_pairwise ?_ (pairwise_merge _ _) (pairwise_merge _ _) hperm
  intro a b ha hb hab hba
  have hkey : a.sortKey = b.sortKey := by
    apply Std.LawfulEqOrd.eq_of_compare
    unfold InOrder at hab hba
    rw [Std.OrientedOrd.eq_swap] at hba
    cases hc : compare a.sortKey b.sortKey <;> simp_all
  exact List.inj_on_of_nodup_map hdistinct (hperm.mem_iff.1 ha) hb hkey

/-- **A module is settled in the same way** when its fresh entries come in another order. -/
theorem run_settle_of_perm
    (h : ((known.find? k).getD []).Perm ((known'.find? k).getD []))
    (hrun : w.run (s.settle base files clean known k) = (.ok m, w'))
    (hdistinct : (m.entries.map (·.sortKey)).Nodup) :
    w.run (s.settle base files clean known' k) = (.ok m, w') := by
  unfold settle at hrun ⊢
  obtain ⟨_, v, hmake, hrun⟩ := ok_of_run_bind hrun
  obtain ⟨former, x, hformer, hrun⟩ := ok_of_run_bind hrun
  rw [run_bind, hmake]
  dsimp only
  rw [run_bind, hformer]
  dsimp only
  rw [run_get_bind]
  have hrun := ok_of_run_get hrun
  dsimp only at hrun
  -- only the merged entries are looked at from here on, and they are those of the module
  suffices hentries : m.entries = merge x.tree base clean former ((known.find? k).getD []) by
    rw [merge_of_perm h (hentries ▸ hdistinct)]
    exact hrun
  split at hrun
  next => exact absurd hrun run_throw_ne
  next =>
    split at hrun
    next hempty =>
      obtain ⟨_, y, -, hrun⟩ := ok_of_run_bind hrun
      obtain ⟨rfl, -⟩ := eq_of_run_pure hrun
      exact (List.isEmpty_iff.1 hempty).symm
    next =>
      split at hrun
      next =>
        obtain ⟨rfl, -⟩ := eq_of_run_pure hrun
        rfl
      next =>
        obtain ⟨_, y, -, hrun⟩ := ok_of_run_bind hrun
        obtain ⟨rfl, -⟩ := eq_of_run_pure hrun
        rfl

theorem run_mapM_settle_of_perm {ks : List QmlModule} (h : AreReordered known known')
    (hrun : w.run (ks.mapM (s.settle base files clean known)) = (.ok ms, w'))
    (hdistinct : ∀ m ∈ ms, (m.entries.map (·.sortKey)).Nodup) :
    w.run (ks.mapM (s.settle base files clean known')) = (.ok ms, w') := by
  induction ks generalizing w ms with
  | nil =>
    rw [List.mapM_nil] at hrun ⊢
    exact hrun
  | cons k ks ih =>
    obtain ⟨m, rest, v, rfl, hfirst, hrest⟩ := ok_of_run_mapM hrun
    obtain ⟨hm, hms⟩ := List.forall_mem_cons.1 hdistinct
    rw [List.mapM_cons, run_bind, run_settle_of_perm (h.perm k) hfirst hm]
    dsimp only
    rw [run_bind, ih hrest hms]
    rfl

/-! ## The refresh -/

/-- The entries that each module gets, the former ones that are kept and the fresh ones, have
different first classes. -/
def HasDistinctClasses (s : Stubs) (registrations : List Registration) (files stale : PathSet)
    (w : Workbench) : Prop :=
  ∀ metatypes ms v, w.run (s.settleAll registrations files stale) = (.ok (metatypes, ms), v) →
    ∀ m ∈ ms, (m.entries.map (·.sortKey)).Nodup

theorem run_settleAll_of_perm {metatypes : List Path} (h : registrations.Perm registrations')
    (hrun : w.run (s.settleAll registrations files stale) = (.ok (metatypes, ms), w'))
    (hdistinct : ∀ m ∈ ms, (m.entries.map (·.sortKey)).Nodup) :
    w.run (s.settleAll registrations' files stale) = (.ok (metatypes, ms), w') := by
  unfold settleAll at hrun ⊢
  have hrun := ok_of_run_get hrun
  rw [run_get_bind]
  dsimp only at hrun ⊢
  obtain ⟨known, v, hgroup, hrun⟩ := ok_of_run_bind hrun
  obtain ⟨hgroup, rfl⟩ := of_run_group hgroup
  obtain ⟨known', hgroup', hknown⟩ := exists_group_of_perm h hgroup
  have hlift : v.run (liftM (m := Except RefreshError)
      (s.group (s.base v.tree) registrations') : Refresh Fresh) = (.ok known', v) := by
    rw [hgroup']
    rfl
  have hmodules : s.modules known' = s.modules known := by
    unfold modules
    rw [hknown.keys]
  obtain ⟨ks, x, hks, hrun⟩ := ok_of_run_bind hrun
  obtain ⟨paths, y, hglob, hrun⟩ := ok_of_run_bind hrun
  obtain ⟨settled, z, hsettle, hrun⟩ := ok_of_run_bind hrun
  obtain ⟨hpair, rfl⟩ := eq_of_run_pure hrun
  obtain ⟨rfl, rfl⟩ := Prod.mk.inj hpair
  rw [run_bind, hlift]
  dsimp only
  rw [hmodules, run_bind, hks]
  dsimp only
  rw [run_bind, hglob]
  dsimp only
  rw [run_bind, run_mapM_settle_of_perm hknown hsettle hdistinct]
  rfl

/-- A registration for each of two modules, the later one first. -/
def twoRegistrations : List Registration :=
  [⟨⟨"w", 1, 0⟩, plainEntry "/a.py"⟩, ⟨⟨"u", 1, 0⟩, plainEntry "/a.py"⟩]

theorem refreshOnce_twoRegistrations : (refreshOnce twoRegistrations bothSources
    (.ofList [⟨"/a.py"⟩]) (sourcesTree formerStubs)).1.toBool = true := by decide +kernel

theorem hasDistinctClasses_twoRegistrations : HasDistinctClasses plainStubs twoRegistrations
    bothSources (.ofList [⟨"/a.py"⟩]) ⟨sourcesTree formerStubs, [], []⟩ := by
  have hall : (Workbench.run ⟨sourcesTree formerStubs, [], []⟩ (plainStubs.settleAll
      twoRegistrations bothSources (.ofList [⟨"/a.py"⟩]))).1.toOption.all (fun found =>
        found.2.all fun m => decide ((m.entries.map (·.sortKey)).Nodup)) = true := by
    decide +kernel
  intro metatypes ms v hrun m hm
  rw [hrun] at hall
  simp only [Except.toOption, Option.all_some, List.all_eq_true, decide_eq_true_eq] at hall
  exact hall m hm

end Stubs

end QmlStubs
