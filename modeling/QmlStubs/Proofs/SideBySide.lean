import Mathlib.Data.List.Find
import QmlStubs.Proofs.Counterparts
import QmlStubs.Proofs.RegistrarRuns

/-!
# Refreshes side by side

A refresh that writes absolute input files and one that writes them relative to a directory take the
same steps. They are run side by side here, on a tree and its counterpart: `Workbench.Simulates` says
that two steps end in related values, or in the same error up to an input file in it, and leave
related trees behind. It goes through sequences and loops (`simulates_bind`, `simulates_mapM`), so
each step of a refresh is looked at once, and

> **a refresh on the counterpart has the same report** and leaves a counterpart
> (`Stubs.runsAgree_refresh`).

While types files are settled and the registrar is run, the output directory is reached and what is
written lies below it. When the `qmldir` files are replaced this is no longer needed, since what is
written then is the same in both trees and can never be taken for a types file (`ofBytes?_qmldir`).
-/

set_option autoImplicit false

namespace QmlStubs

open FileTree

/-! ## Results side by side -/

/-- The error with its input file relative to a directory. -/
def RefreshError.relativeTo (b : Path) : RefreshError → RefreshError
  | .unknownInput className module inputFile =>
    .unknownInput className module (relativeText b inputFile)
  | e => e

namespace Workbench

variable {α α' β β' γ : Type} {b : Path} {R : FileTree → FileTree → Prop} {S : α → α' → Prop}
  {T : β → β' → Prop}

/-- Results agree: related values, or the same error up to its input file. -/
def Agree (b : Path) (S : α → α' → Prop) :
    Except RefreshError α → Except RefreshError α' → Prop
  | .ok a, .ok a' => S a a'
  | .error e, .error e' => e' = e.relativeTo b
  | _, _ => False

theorem agree_eq {r r' : Except RefreshError α} :
    Agree b Eq r r' ↔ r' = r.mapError (RefreshError.relativeTo b) := by
  cases r <;> cases r' <;> simp [Agree, Except.mapError, eq_comm]

/-- Two workbenches with related trees. -/
structure Related (R : FileTree → FileTree → Prop) (w w' : Workbench) : Prop where
  tree : R w.tree w'.tree
  calls : w'.calls = w.calls
  notices : w'.notices = w.notices

theorem Related.mono {R' : FileTree → FileTree → Prop} {w w' : Workbench} (h : Related R w w')
    (hle : ∀ t t', R t t' → R' t t') : Related R' w w' :=
  ⟨hle _ _ h.tree, h.calls, h.notices⟩

/-- Runs on two workbenches come to the same. -/
def RunsAgree (b : Path) (R : FileTree → FileTree → Prop) (S : α → α' → Prop) (x : Refresh α)
    (x' : Refresh α') (w w' : Workbench) : Prop :=
  Agree b S (w.run x).1 (w'.run x').1 ∧ Related R (w.run x).2 (w'.run x').2

/-- Two steps come to the same on all related workbenches. -/
def Simulates (b : Path) (R : FileTree → FileTree → Prop) (S : α → α' → Prop) (x : Refresh α)
    (x' : Refresh α') : Prop :=
  ∀ w w', Related R w w' → RunsAgree b R S x x' w w'

theorem simulates_pure {a : α} {a' : α'} (h : S a a') : Simulates b R S (pure a) (pure a') :=
  fun _ _ hw => ⟨h, hw⟩

theorem simulates_throw {e e' : RefreshError} (h : e' = e.relativeTo b) :
    Simulates b R S (throw e) (throw e') :=
  fun _ _ hw => ⟨h, hw⟩

/-- A step after another one. It may end in a weaker relation than it starts with. -/
theorem RunsAgree.bind {R' : FileTree → FileTree → Prop} {x : Refresh α} {x' : Refresh α'}
    {f : α → Refresh β} {f' : α' → Refresh β'} {w w' : Workbench} (hx : RunsAgree b R S x x' w w')
    (hle : ∀ t t', R t t' → R' t t')
    (hf : ∀ a a' u u', S a a' → Related R u u' → RunsAgree b R' T (f a) (f' a') u u') :
    RunsAgree b R' T (x >>= f) (x' >>= f') w w' := by
  obtain ⟨hresult, hafter⟩ := hx
  unfold RunsAgree
  rw [run_bind, run_bind]
  cases hrun : w.run x with
  | mk r u =>
  cases hrun' : w'.run x' with
  | mk r' u' =>
  rw [hrun, hrun'] at hresult hafter
  cases r with
  | error e =>
    cases r' with
    | error e' => exact ⟨hresult, hafter.mono hle⟩
    | ok a' => exact hresult.elim
  | ok a =>
    cases r' with
    | error e' => exact hresult.elim
    | ok a' => exact hf a a' u u' hresult hafter

theorem simulates_bind {x : Refresh α} {x' : Refresh α'} {f : α → Refresh β} {f' : α' → Refresh β'}
    (hx : Simulates b R S x x') (hf : ∀ a a', S a a' → Simulates b R T (f a) (f' a')) :
    Simulates b R T (x >>= f) (x' >>= f') :=
  fun w w' hw => (hx w w' hw).bind (fun _ _ h => h) fun a a' u u' ha hu => hf a a' ha u u' hu

/-- What looks at the workbench first. -/
theorem runsAgree_get {f : Workbench → Refresh β} {f' : Workbench → Refresh β'} {w w' : Workbench}
    (h : RunsAgree b R T (f w) (f' w') w w') : RunsAgree b R T (get >>= f) (get >>= f') w w' := by
  unfold RunsAgree
  rw [run_get_bind, run_get_bind]
  exact h

theorem simulates_get {f : Workbench → Refresh β} {f' : Workbench → Refresh β'}
    (hf : ∀ w w', Related R w w' → RunsAgree b R T (f w) (f' w') w w') :
    Simulates b R T (get >>= f) (get >>= f') :=
  fun w w' hw => runsAgree_get (hf w w' hw)

theorem simulates_lift {r : Except RefreshError α} {r' : Except RefreshError α'}
    (h : Agree b S r r') : Simulates b R S (liftM r) (liftM r') :=
  fun _ _ hw => ⟨h, hw⟩

theorem simulates_forM_map {γ' : Type} {g : γ → γ'} {f : γ → Refresh Unit}
    {f' : γ' → Refresh Unit} {l : List γ}
    (hf : ∀ a ∈ l, Simulates b R (fun _ _ => True) (f a) (f' (g a))) :
    Simulates b R (fun _ _ => True) (l.forM f) ((l.map g).forM f') := by
  induction l with
  | nil => exact simulates_pure trivial
  | cons a l ih =>
    obtain ⟨ha, hl⟩ := List.forall_mem_cons.1 hf
    exact simulates_bind ha fun _ _ _ => ih hl

theorem simulates_forM {f f' : γ → Refresh Unit} {l : List γ}
    (hf : ∀ a ∈ l, Simulates b R (fun _ _ => True) (f a) (f' a)) :
    Simulates b R (fun _ _ => True) (l.forM f) (l.forM f') := by
  have h := simulates_forM_map (g := id) hf
  rwa [List.map_id] at h

/-- Steps for the members of a list, whose results are related one by one. -/
theorem simulates_mapM {f : γ → Refresh α} {f' : γ → Refresh α'} {l : List γ}
    (hf : ∀ a ∈ l, Simulates b R S (f a) (f' a)) :
    Simulates b R (List.Forall₂ S) (l.mapM f) (l.mapM f') := by
  induction l with
  | nil => exact simulates_pure .nil
  | cons a l ih =>
    obtain ⟨ha, hl⟩ := List.forall_mem_cons.1 hf
    rw [List.mapM_cons, List.mapM_cons]
    refine simulates_bind ha fun c c' hc => ?_
    exact simulates_bind (ih hl) fun cs cs' hcs => simulates_pure (.cons hc hcs)

end Workbench

namespace Stubs

open Workbench

variable {b d : Place} {p : Path} {R : FileTree → FileTree → Prop} {s : Stubs} {k : QmlModule}
variable {t t' : FileTree} {w w' : Workbench}

/-! ## Single steps -/

theorem simulates_edit {e e' : Edit} (he : FileTree.Simulates R e e')
    {wrap : FileError → RefreshError} (hwrap : ∀ c, (wrap c).relativeTo (pathOf b) = wrap c) :
    Workbench.Simulates (pathOf b) R (fun _ _ => True) (edit e wrap) (edit e' wrap) := by
  intro w w' hw
  obtain ⟨hresult, hafter⟩ := he w.tree w'.tree hw.tree
  unfold RunsAgree
  rw [run_edit, run_edit, hresult]
  refine ⟨?_, hafter, hw.calls, hw.notices⟩
  cases (w.tree.run e).1 with
  | ok _ => trivial
  | error c => exact (hwrap c).symm

/-- A search finds the same. -/
theorem simulates_glob (hR : ∀ t t', R t t' → IsCounterpart b d t t') (directory : Path)
    (pattern : String) :
    Workbench.Simulates (pathOf b) R Eq (glob directory pattern) (glob directory pattern) := by
  refine simulates_get fun w w' hw => ?_
  have hsame : Glob.pathsBelow? w'.tree directory pattern.toList =
      Glob.pathsBelow? w.tree directory pattern.toList :=
    (hR _ _ hw.tree).eq (Glob.pathsBelow? · directory pattern.toList) fun t =>
      Glob.pathsBelow?_blank t directory pattern.toList
  rw [hsame]
  cases Glob.pathsBelow? w.tree directory pattern.toList with
  | none => exact simulates_throw rfl w w' hw
  | some paths => exact simulates_pure rfl w w' hw

/-! ## Entries -/

/-- Entries below a directory, and the same entries relative to it. -/
structure AreRelative (b : Place) (entries entries' : List TypesEntry) : Prop where
  eq : entries' = entries.map (TypesEntry.relativeTo (pathOf b))
  below : ∀ e ∈ entries, e.IsBelow b

theorem areRelative_nil : AreRelative b [] [] := ⟨rfl, nofun⟩

theorem AreRelative.append {l l' m m' : List TypesEntry} (h : AreRelative b l l')
    (h' : AreRelative b m m') : AreRelative b (l ++ m) (l' ++ m') where
  eq := by rw [h.eq, h'.eq, List.map_append]
  below e he := (List.mem_append.1 he).elim (h.below e) (h'.below e)

/-- **A types file is read like its counterpart**, but for the input files. -/
theorem read_counterpart (h : IsCounterpart b d t t') (hroot : IsReached p d t) (hk : k.IsInside) :
    TypesFile.read t' ((k.directoryIn p).join k.typesFileName) =
        (TypesFile.read t ((k.directoryIn p).join k.typesFileName)).map
          (List.map (TypesEntry.relativeTo (pathOf b))) ∧
      ∀ entries, TypesFile.read t ((k.directoryIn p).join k.typesFileName) = .ok entries →
        ∀ e ∈ entries, e.IsBelow b := by
  have hplace := h.eq (·.place? ((k.directoryIn p).join k.typesFileName)) fun t => place?_blank t _
  unfold TypesFile.read read?
  rw [hplace]
  cases hq : t.place? ((k.directoryIn p).join k.typesFileName) with
  | error e => exact ⟨rfl, nofun⟩
  | ok q =>
    have hbehind := hroot.of_place? h.linkless hk k.isName_typesFileName hq
    dsimp only [bind, Except.bind]
    rcases h.at?_cases q with ⟨hnone, hsame⟩ | ⟨content, content', time, x, he, he'⟩
    · rw [hsame]
      unfold contentAt? at hnone
      cases he : t.at? q with
      | none => exact ⟨rfl, nofun⟩
      | some e =>
        rw [he] at hnone
        cases e with
        | file content time x => cases hnone
        | directory time => exact ⟨rfl, nofun⟩
        | link target => exact ⟨rfl, nofun⟩
    · rw [he, he']
      have htranslates := h.types k q content content' hbehind
        (contentAt?_eq_some.2 ⟨time, x, he⟩) (contentAt?_eq_some.2 ⟨time, x, he'⟩)
      dsimp only [pure, Except.pure]
      rw [htranslates.entries]
      cases hentries : TypesFile.ofBytes? content with
      | none => exact ⟨rfl, nofun⟩
      | some entries =>
        refine ⟨rfl, ?_⟩
        rintro _ ⟨⟩
        exact htranslates.below entries hentries

/-- The former entries of a types file and its counterpart. -/
theorem simulates_formerEntries (hk : k.IsInside) :
    Workbench.Simulates (pathOf b) (IsRootedCounterpart b p d) (AreRelative b)
      (formerEntries ((k.directoryIn p).join k.typesFileName))
      (formerEntries ((k.directoryIn p).join k.typesFileName)) := by
  refine simulates_get fun w w' hw => ?_
  have hpresent := hw.tree.counterpart.eq (·.isPresent ((k.directoryIn p).join k.typesFileName))
    fun t => isPresent_blank t _
  obtain ⟨hread, hbelow⟩ := read_counterpart hw.tree.counterpart hw.tree.rooted.toIsReached hk
  dsimp only
  rw [hpresent, hread]
  split
  · cases hentries : TypesFile.read w.tree ((k.directoryIn p).join k.typesFileName) with
    | error e => exact simulates_throw rfl w w' hw
    | ok entries => exact simulates_pure ⟨rfl, hbelow entries hentries⟩ w w' hw
  · exact simulates_pure areRelative_nil w w' hw

/-- An entry comes from the same file as its relative form. -/
theorem resolvedInput_counterpart (hb : ∀ n ∈ b, IsName n) (h : IsCounterpart b d t t')
    {e : TypesEntry} (he : e.IsBelow b) (base : Path) :
    (e.relativeTo (pathOf b)).resolvedInput t' (pathOf b) = e.resolvedInput t base := by
  rw [he.resolvedInput_relativeTo hb t' base]
  exact h.eq (e.resolvedInput · base) fun t => canonicalOr_blank t _

/-- **The merge of relative entries is the relative form of the merge.** -/
theorem areRelative_merge (hb : ∀ n ∈ b, IsName n) (h : IsCounterpart b d t t') (base : Path)
    (clean : PathSet) {former former' fresh fresh' : List TypesEntry}
    (hformer : AreRelative b former former') (hfresh : AreRelative b fresh fresh') :
    AreRelative b (merge t base clean former fresh) (merge t' (pathOf b) clean former' fresh') := by
  have hkept : AreRelative b (former.filter fun e => clean.has (e.resolvedInput t base))
      (former'.filter fun e => clean.has (e.resolvedInput t' (pathOf b))) := by
    have hsame : ∀ e ∈ former, ((fun e => clean.has (e.resolvedInput t' (pathOf b))) ∘
        TypesEntry.relativeTo (pathOf b)) e = clean.has (e.resolvedInput t base) := by
      intro e he
      rw [Function.comp, resolvedInput_counterpart hb h (hformer.below e he) base]
    refine ⟨?_, fun e he => hformer.below e (List.mem_of_mem_filter he)⟩
    rw [hformer.eq, List.filter_map, List.filter_congr hsame]
  have hall := hkept.append hfresh
  refine ⟨?_, fun e he => hall.below e (List.mem_mergeSort.1 he)⟩
  -- no sort key has an input file in it, so the relative entries are sorted in the same way
  have hkeys : ∀ e ∈ former.filter (fun e => clean.has (e.resolvedInput t base)) ++ fresh,
      ∀ f ∈ former.filter (fun e => clean.has (e.resolvedInput t base)) ++ fresh,
      (compare e.sortKey f.sortKey).isLE = (compare (e.relativeTo (pathOf b)).sortKey
        (f.relativeTo (pathOf b)).sortKey).isLE := fun _ _ _ _ => rfl
  unfold merge
  rw [hall.eq]
  exact (List.map_mergeSort hkeys).symm

/-- The same entry is the first one from an unknown file. -/
theorem AreRelative.find? (hb : ∀ n ∈ b, IsName n) (h : IsCounterpart b d t t') (base : Path)
    (files : PathSet) {l l' : List TypesEntry} (hl : AreRelative b l l') :
    (l'.find? fun e => !files.has (e.resolvedInput t' (pathOf b))) =
      (l.find? fun e => !files.has (e.resolvedInput t base)).map
        (TypesEntry.relativeTo (pathOf b)) := by
  have hsame : ∀ e ∈ l, ((fun e => !files.has (e.resolvedInput t' (pathOf b))) ∘
      TypesEntry.relativeTo (pathOf b)) e = !files.has (e.resolvedInput t base) := by
    intro e he
    rw [Function.comp, resolvedInput_counterpart hb h (hl.below e he) base]
  rw [hl.eq, List.find?_map, List.find?_congr hsame]

/-- Different entries have different relative forms. -/
theorem AreRelative.eq_iff (hb : ∀ n ∈ b, IsName n) {l l' m m' : List TypesEntry}
    (hl : AreRelative b l l') (hm : AreRelative b m m') : l' = m' ↔ l = m := by
  rw [hl.eq, hm.eq]
  refine ⟨fun h => ?_, fun h => by rw [h]⟩
  have hbelow := hl.below
  have hbelow' := hm.below
  clear hl hm
  induction l generalizing m with
  | nil => simpa using h.symm
  | cons e l ih =>
    cases m with
    | nil => cases h
    | cons f m =>
      obtain ⟨he, hl⟩ := List.forall_mem_cons.1 hbelow
      obtain ⟨hf, hm⟩ := List.forall_mem_cons.1 hbelow'
      obtain ⟨hhead, htail⟩ := List.cons.inj h
      rw [he.eq_of_relativeTo hb hf hhead, ih htail hl hm]

theorem AreRelative.isEmpty_eq {l l' : List TypesEntry} (h : AreRelative b l l') :
    l'.isEmpty = l.isEmpty := by
  rw [h.eq, List.isEmpty_map]

/-! ## Settling a module -/

/-- The stubs with input files written relative to a directory. -/
def relative (s : Stubs) (b : Path) : Stubs := { s with relativeTo := some b }

/-- The settled module with relative input files. -/
def Settled.relativeTo (b : Path) (m : Settled) : Settled :=
  { m with entries := m.entries.map (TypesEntry.relativeTo b) }

/-- A settled module below the output directory, and the same module with relative input files. -/
structure IsSettledAlike (b : Place) (p : Path) (m m' : Settled) : Prop where
  eq : m' = m.relativeTo (pathOf b)
  inside : m.module.IsInside
  directory : m.directory = m.module.directoryIn p

theorem translates_text {entries entries' : List TypesEntry} (h : AreRelative b entries entries') :
    Translates b (TypesFile.text entries).toUTF8 (TypesFile.text entries').toUTF8 where
  entries := by
    rw [TypesFile.ofBytes?_text, TypesFile.ofBytes?_text, h.eq]
    rfl
  below es hes := by
    rw [TypesFile.ofBytes?_text] at hes
    cases hes
    exact h.below

/-- The files of a module are removed alike. -/
theorem simulates_removeFiles (hk : k.IsInside) :
    Workbench.Simulates (pathOf b) (IsRootedCounterpart b p d) (fun _ _ => True)
      (removeFiles k (k.directoryIn p)) (removeFiles k (k.directoryIn p)) := by
  refine simulates_forM fun n hn => ?_
  have hname : IsName n := k.isName_of_mem_fileNames (by
    simpa [QmlModule.fileNames, QmlModule.otherNames] using hn)
  exact simulates_edit (simulates_removeIfPresent hk hname) fun _ => rfl

/-- **A module is settled alike.** -/
theorem simulates_settle (hb : ∀ n ∈ b, IsName n) (base : Path) (files clean : PathSet)
    {fresh fresh' : Fresh} (hk : k.IsInside)
    (hfresh : AreRelative b ((fresh.find? k).getD []) ((fresh'.find? k).getD [])) :
    Workbench.Simulates (pathOf b) (IsRootedCounterpart b s.outDir d) (IsSettledAlike b s.outDir)
      (s.settle base files clean fresh k)
      ((s.relative (pathOf b)).settle (pathOf b) files clean fresh' k) := by
  refine simulates_bind (simulates_edit (simulates_makeDirectories _) fun _ => rfl) fun _ _ _ => ?_
  refine simulates_bind (simulates_formerEntries hk) fun former former' hformer => ?_
  refine simulates_get fun w w' hw => ?_
  have hcounterpart := hw.tree.counterpart
  have hmerge := areRelative_merge hb hcounterpart base clean hformer hfresh
  dsimp only
  rw [hmerge.find? hb hcounterpart base files]
  cases hfind : (merge w.tree base clean former ((fresh.find? k).getD [])).find?
      fun e => !files.has (e.resolvedInput w.tree base) with
  | some e => exact simulates_throw rfl w w' hw
  | none =>
    rw [Option.map_none]
    dsimp only
    rw [hmerge.isEmpty_eq]
    split
    · refine simulates_bind (simulates_removeFiles hk) (fun _ _ _ => ?_) w w' hw
      exact simulates_pure ⟨rfl, hk, rfl⟩
    -- the file is left alone in both trees or in none of them
    by_cases hsame : former = merge w.tree base clean former ((fresh.find? k).getD [])
    · rw [if_pos hsame, if_pos ((hformer.eq_iff hb hmerge).2 hsame)]
      exact simulates_pure ⟨congrArg (Settled.mk k _ · false) hmerge.eq, hk, rfl⟩ w w' hw
    · rw [if_neg hsame, if_neg fun h => hsame ((hformer.eq_iff hb hmerge).1 h)]
      have hwrite := simulates_write (p := s.outDir) (d := d) hk k.isName_typesFileName
        fun _ _ => translates_text hmerge
      refine simulates_bind (simulates_edit hwrite fun _ => rfl) (fun _ _ _ => ?_) w w' hw
      exact simulates_pure ⟨congrArg (Settled.mk k _ · true) hmerge.eq, hk, rfl⟩

/-! ## The modules -/

/-- Registrations by module, and the same ones with relative input files. -/
structure AreFreshAlike (b : Place) (fresh fresh' : Fresh) : Prop where
  contains : ∀ k, fresh'.contains k = fresh.contains k
  entries : ∀ k, AreRelative b ((fresh.find? k).getD []) ((fresh'.find? k).getD [])
  inside : ∀ k, fresh.contains k = true → k.IsInside

theorem AreFreshAlike.keys {fresh fresh' : Fresh} (h : AreFreshAlike b fresh fresh') :
    fresh'.keys = fresh.keys :=
  eq_of_pairwise_lt fresh'.keys_pairwise fresh.keys_pairwise fun k => by
    rw [SortedMap.mem_keys, SortedMap.mem_keys, h.contains]

/-- The relative form of an entry below the directory. -/
theorem relativeEntry_relative (hb : ∀ n ∈ b, IsName n) {e : TypesEntry} (he : e.IsBelow b) :
    (s.relative (pathOf b)).relativeEntry (pathOf b) e = .ok (e.relativeTo (pathOf b)) := by
  obtain ⟨ns, hne, hns, hinput⟩ := he
  unfold relativeEntry relative TypesEntry.relativeTo relativeText
  rw [hinput]
  have h := relativeTo?_pathOf hb hns
  simp [h]

/-- **Registrations are grouped alike.** -/
theorem agree_group (hb : ∀ n ∈ b, IsName n) (hs : s.relativeTo = none) (base : Path)
    {registrations : List Registration}
    (hregs : ∀ r ∈ registrations, r.entry.IsBelow b ∧ r.module.IsInside) :
    Agree (pathOf b) (AreFreshAlike b) (s.group base registrations)
      ((s.relative (pathOf b)).group (pathOf b) registrations) := by
  have hfold : ∀ known known' : Fresh, AreFreshAlike b known known' →
      Agree (pathOf b) (AreFreshAlike b) (registrations.foldlM (s.addRegistration base) known)
        (registrations.foldlM ((s.relative (pathOf b)).addRegistration (pathOf b)) known') := by
    induction registrations with
    | nil => exact fun _ _ h => h
    | cons r rest ih =>
      intro known known' h
      obtain ⟨⟨hbelow, hinside⟩, hrest⟩ := List.forall_mem_cons.1 hregs
      have hadd : s.addRegistration base known r =
          .ok (known.insert r.module ((known.find? r.module).getD [] ++ [r.entry])) := by
        unfold addRegistration relativeEntry
        rw [hs]
        rfl
      have hadd' : (s.relative (pathOf b)).addRegistration (pathOf b) known' r =
          .ok (known'.insert r.module ((known'.find? r.module).getD [] ++
            [r.entry.relativeTo (pathOf b)])) := by
        unfold addRegistration
        rw [relativeEntry_relative hb hbelow]
        rfl
      rw [List.foldlM_cons, List.foldlM_cons, hadd, hadd']
      refine ih hrest _ _ ⟨fun k => ?_, fun k => ?_, fun k hk => ?_⟩
      · rw [Bool.eq_iff_iff, SortedMap.contains_insert, SortedMap.contains_insert, h.contains]
      · rw [SortedMap.find?_insert, SortedMap.find?_insert]
        split
        · refine (h.entries r.module).append ⟨rfl, ?_⟩
          simpa using hbelow
        · exact h.entries k
      · rcases SortedMap.contains_insert.1 hk with rfl | hk
        · exact hinside
        · exact h.inside k hk
  exact hfold .empty .empty ⟨fun _ => rfl, fun _ => areRelative_nil, nofun⟩

/-- A module that is found below the output directory is inside. -/
theorem isInside_of_ofTypesPath? {r : Path} (hp : p.text ≠ "")
    (h : QmlModule.ofTypesPath? p r = some k) : k.IsInside := fun part hpart =>
  head?_ne_slash (QmlModule.not_slash_mem_parts hp h part hpart)

/-- The same modules are looked at. -/
theorem simulates_modules (hp : s.outDir.text ≠ "") {fresh fresh' : Fresh}
    (h : AreFreshAlike b fresh fresh') :
    Workbench.Simulates (pathOf b) (IsRootedCounterpart b p d)
      (fun ks ks' => ks' = ks ∧ ∀ k ∈ ks, k.IsInside)
      (s.modules fresh) ((s.relative (pathOf b)).modules fresh') := by
  refine simulates_bind (simulates_glob (fun _ _ h => h.counterpart) s.outDir _) ?_
  rintro paths _ rfl
  rw [h.keys]
  refine simulates_pure ⟨rfl, fun k hk => ?_⟩
  rcases SortedSet.mem_toList_insertAll.1 hk with hk | hk
  · obtain ⟨r, -, hr⟩ := List.mem_filterMap.1 hk
    exact isInside_of_ofTypesPath? hp hr
  · exact h.inside k (SortedMap.mem_keys.1 (SortedSet.mem_toList_ofList.1 hk))

/-! ## The phases -/

/-- Settled modules, and the same ones with relative input files. -/
structure AreSettledAlike (b : Place) (p : Path) (ms ms' : List Settled) : Prop where
  eq : ms' = ms.map (Settled.relativeTo (pathOf b))
  inside : ∀ m ∈ ms, m.module.IsInside ∧ m.directory = m.module.directoryIn p

theorem areSettledAlike_of_forall₂ {ms ms' : List Settled}
    (h : List.Forall₂ (IsSettledAlike b p) ms ms') : AreSettledAlike b p ms ms' := by
  induction h with
  | nil => exact ⟨rfl, nofun⟩
  | cons hm _ ih =>
    refine ⟨?_, List.forall_mem_cons.2 ⟨⟨hm.inside, hm.directory⟩, ih.inside⟩⟩
    rw [List.map_cons, hm.eq, ih.eq]

/-- **The first phase comes to the same.** -/
theorem runsAgree_settleAll (hb : ∀ n ∈ b, IsName n) (hs : s.relativeTo = none)
    {registrations : List Registration} (files stale : PathSet)
    (hregs : ∀ r ∈ registrations, r.entry.IsBelow b ∧ r.module.IsInside)
    (hw : Related (IsRootedCounterpart b s.outDir d) w w')
    (hbase : w.tree.canonicalOr (pathOf b) = pathOf b) :
    RunsAgree (pathOf b) (IsRootedCounterpart b s.outDir d)
      (fun r r' => r'.1 = r.1 ∧ AreSettledAlike b s.outDir r.2 r'.2)
      (s.settleAll registrations files stale)
      ((s.relative (pathOf b)).settleAll registrations files stale) w w' := by
  have hsame : w'.tree.canonicalOr (pathOf b) = w.tree.canonicalOr (pathOf b) :=
    hw.tree.counterpart.eq (·.canonicalOr (pathOf b)) fun t => canonicalOr_blank t _
  have hbase' : (s.relative (pathOf b)).base w'.tree = pathOf b := hsame.trans hbase
  unfold settleAll
  refine runsAgree_get ?_
  dsimp only
  rw [hbase']
  refine simulates_bind (simulates_lift (agree_group hb hs _ hregs))
    (fun fresh fresh' hfresh => ?_) w w' hw
  refine simulates_bind (simulates_modules hw.tree.rooted.text hfresh) ?_
  rintro _ ks ⟨rfl, hks⟩
  refine simulates_bind (simulates_glob (fun _ _ h => h.counterpart) s.metatypesDir _) ?_
  rintro metatypes _ rfl
  have hsettle := simulates_mapM (b := pathOf b) (l := ks) fun k hk =>
    simulates_settle (d := d) (s := s) hb (s.base w.tree) files
      (files.filter fun p _ => !stale.contains p) (hks k hk) (hfresh.entries k)
  refine simulates_bind hsettle fun ms ms' hms => ?_
  exact simulates_pure ⟨rfl, areSettledAlike_of_forall₂ hms⟩

theorem AreSettledAlike.keptOf {ms ms' : List Settled} (h : AreSettledAlike b p ms ms') :
    AreSettledAlike b p (keptOf ms) (keptOf ms') := by
  refine ⟨?_, fun m hm => h.inside m (List.mem_of_mem_filter hm)⟩
  unfold Stubs.keptOf
  have hsame : ((fun m : Settled => !m.entries.isEmpty) ∘ Settled.relativeTo (pathOf b)) =
      fun m => !m.entries.isEmpty := by
    funext m
    simp [Settled.relativeTo]
  rw [h.eq, List.filter_map, hsame]

theorem AreSettledAlike.changedOf {ms ms' : List Settled} (h : AreSettledAlike b p ms ms') :
    AreSettledAlike b p (changedOf ms) (changedOf ms') := by
  refine ⟨?_, fun m hm => h.keptOf.inside m (List.mem_of_mem_filter hm)⟩
  unfold Stubs.changedOf
  rw [h.keptOf.eq, List.filter_map]
  rfl

theorem AreSettledAlike.foreignTypes {ms ms' : List Settled} (h : AreSettledAlike b p ms ms')
    (metatypes : List Path) : foreignTypes metatypes ms' = foreignTypes metatypes ms := by
  unfold Stubs.foreignTypes
  rw [h.keptOf.eq, List.map_map]
  rfl

/-- The `qmldir` files do not depend on input files. -/
theorem AreSettledAlike.qmldirsOf {ms ms' : List Settled} (h : AreSettledAlike b p ms ms') :
    qmldirsOf ms' = qmldirsOf ms := by
  have hlines (m : Settled) : qmldirLines (m.relativeTo (pathOf b)) = qmldirLines m := by
    unfold qmldirLines Settled.relativeTo
    rw [List.flatMap_map]
    rfl
  have hadd (dirs : SortedMap (List Component) Qmldir) (m : Settled) :
      addQmldir dirs (m.relativeTo (pathOf b)) = addQmldir dirs m := by
    unfold addQmldir
    rw [hlines]
    rfl
  unfold Stubs.qmldirsOf
  rw [h.keptOf.eq, List.foldl_map]
  simp only [hadd]

theorem AreSettledAlike.reportOf {ms ms' : List Settled} (h : AreSettledAlike b p ms ms') :
    reportOf ms' = reportOf ms := by
  have hmodules (f : Settled → Bool) (hf : ∀ m, f (m.relativeTo (pathOf b)) = f m)
      {l l' : List Settled} (hl : l' = l.map (Settled.relativeTo (pathOf b))) :
      (l'.filter f).map (·.module) = (l.filter f).map (·.module) := by
    rw [hl, List.filter_map, List.map_map, show f ∘ Settled.relativeTo (pathOf b) = f from funext hf]
    rfl
  unfold Stubs.reportOf
  rw [h.qmldirsOf, hmodules (fun m => m.entries.isEmpty) (by simp [Settled.relativeTo]) h.eq,
    hmodules (fun m => !m.changed) (fun _ => rfl) h.keptOf.eq]
  unfold Stubs.changedOf
  rw [hmodules (·.changed) (fun _ => rfl) h.keptOf.eq]

end Stubs

/-! ## The registrar -/

namespace Registrar

/-- Two trees after the same ones of some files were written in them, each with its own contents. -/
inductive WritesSame (paths : List Path) (t t' : FileTree) : FileTree → FileTree → Prop where
  | nothing : WritesSame paths t t' t t'
  | write {u u' : FileTree} {p : Path} (h : WritesSame paths t t' u u') (hp : p ∈ paths)
      (content content' : ByteArray) :
      WritesSame paths t t' (u.run (write p content)).2 (u'.run (write p content')).2

/-- A registrar to which types files with relative input files are as good as others: it ends in the
same way, and writes the same ones of its outputs. What it writes may differ. -/
def TreatsAlike (b d : Place) (r : Registrar) : Prop :=
  ∀ args t t', IsCounterpart b d t t' → (r.behaviour args t').1 = (r.behaviour args t).1 ∧
    WritesSame (outputs args) t t' (r.behaviour args t).2 (r.behaviour args t').2

/-- The scripted behaviour does not look into files. -/
theorem treatsAlike_scripted (b d : Place) (path : Path) (searchPath : List Path)
    (fails : Option (String × Nat)) : TreatsAlike b d ⟨path, searchPath, scripted fails⟩ := by
  intro args t t' h
  have hwrite (p : Path) (hp : p ∈ outputs args) : FileTree.Simulates
      (fun u u' => u'.blank = u.blank ∧ WritesSame (outputs args) t t' u u') (writeText p "")
      (writeText p "") := by
    intro u u' ⟨hblank, hsame⟩
    obtain ⟨hresult, hafter⟩ := simulates_write_of_blank p "".toUTF8 "".toUTF8 u u' hblank
    exact ⟨hresult, hafter, hsame.write hp _ _⟩
  unfold scripted
  dsimp only
  split
  next => exact ⟨rfl, .nothing⟩
  next registrations _ qmltypes rest hstatus =>
    obtain ⟨hresult, -, hsame⟩ := (hwrite ⟨registrations⟩ (by simp [outputs])).seq
      (hwrite ⟨qmltypes⟩ (by simp [outputs])) t t' ⟨h.blank, .nothing⟩
    revert hresult hsame
    generalize FileTree.run t _ = x
    generalize FileTree.run t' _ = x'
    obtain ⟨result, u⟩ := x
    obtain ⟨result', u'⟩ := x'
    rintro rfl hsame
    cases result' <;> exact ⟨rfl, hsame⟩
  next => exact ⟨rfl, .nothing⟩

end Registrar

namespace Stubs

open Workbench

variable {b d : Place} {p : Path} {s : Stubs} {k : QmlModule} {t t' : FileTree}
  {w w' : Workbench}

/-- **A run of the registrar leaves counterparts.** -/
theorem run_counterpart {r : Registrar} (hr : r.TreatsAlike b d)
    (h : IsRootedCounterpart b p d t t') (hk : k.IsInside) (foreign : List Path) :
    (r.run k (k.directoryIn p) foreign t').1 = (r.run k (k.directoryIn p) foreign t).1 ∧
      (r.run k (k.directoryIn p) foreign t').2.1 = (r.run k (k.directoryIn p) foreign t).2.1 ∧
      IsRootedCounterpart b p d (r.run k (k.directoryIn p) foreign t).2.2
        (r.run k (k.directoryIn p) foreign t').2.2 := by
  have hafter : ∀ u u', Registrar.WritesSame
      (Registrar.outputs (Registrar.arguments k (k.directoryIn p) foreign)) t t' u u' →
      IsRootedCounterpart b p d u u' := by
    intro u u' hsame
    induction hsame with
    | nothing => exact h
    | @write u u' path _ hpath content content' ih =>
      obtain ⟨n, hn, rfl⟩ : ∃ n ∈ k.otherNames, (k.directoryIn p).join n = path := by
        rcases List.mem_cons.1 hpath with rfl | hpath
        · exact ⟨k.registrationsFileName, List.mem_cons_self .., rfl⟩
        · obtain rfl := List.mem_singleton.1 hpath
          exact ⟨k.qmltypesFileName, by simp [QmlModule.otherNames], rfl⟩
      refine (simulates_write hk (QmlModule.isName_of_mem_otherNames hn) ?_ u u' ih).2
      exact fun j hj => absurd hj.symm (QmlModule.ne_typesFileName_of_mem_otherNames hn j)
  have hstart := h.counterpart.eq (fun t => (Launch.mk (r.path.text ::
    Registrar.arguments k (k.directoryIn p) foreign) none []).startError? t r.searchPath)
    fun t => Launch.startError?_blank _ t _
  obtain ⟨hstatus, hsame⟩ :=
    hr (Registrar.arguments k (k.directoryIn p) foreign) t t' h.counterpart
  unfold Registrar.run
  dsimp only at hstart ⊢
  rw [hstart]
  cases (Launch.mk (r.path.text :: Registrar.arguments k (k.directoryIn p) foreign) none
      []).startError? t r.searchPath with
  | some cause => exact ⟨rfl, rfl, h⟩
  | none =>
    dsimp only
    rw [hstatus]
    exact ⟨rfl, rfl, hafter _ _ hsame⟩

/-- **The registrar is run alike**, with the same arguments and notices. -/
theorem simulates_generate (hr : s.registrar.TreatsAlike b d) (foreign : List Path) {m : Settled}
    (hk : m.module.IsInside) (hdirectory : m.directory = m.module.directoryIn s.outDir) :
    Workbench.Simulates (pathOf b) (IsRootedCounterpart b s.outDir d) (fun _ _ => True)
      (s.generate foreign m)
      ((s.relative (pathOf b)).generate foreign (m.relativeTo (pathOf b))) := by
  intro w w' hw
  have halike := run_counterpart hr hw.tree hk foreign
  rw [← hdirectory] at halike
  cases hrun : s.registrar.run m.module m.directory foreign w.tree with
  | mk error rest =>
  obtain ⟨started, u⟩ := rest
  cases hrun' : s.registrar.run m.module m.directory foreign w'.tree with
  | mk error' rest' =>
  obtain ⟨started', u'⟩ := rest'
  rw [hrun, hrun'] at halike
  obtain ⟨rfl, rfl, hafter⟩ := halike
  unfold RunsAgree
  rw [run_generate hrun, run_generate (s := s.relative (pathOf b))
    (m := m.relativeTo (pathOf b)) hrun', hw.calls, hw.notices]
  refine ⟨?_, hafter, rfl, ?_⟩
  · cases error' with
    | none => trivial
    | some e => rfl
  · simp [Settled.relativeTo]

/-! ## The qmldir files -/

/-- A text that starts with a small m is no list of entries. -/
theorem ofBytes?_qmldir (q : Qmldir) : TypesFile.ofBytes? q.text.toUTF8 = none := by
  obtain ⟨rest, hrest⟩ : ∃ rest, q.text.toList = 'm' :: rest := by
    unfold Qmldir.text
    rw [String.join_cons]
    simp
  -- it starts none of the words, and it is no digit
  have hvalue (fuel : Nat) (rest : List Text.Symbol) :
      Json.value? (fuel + 1) (some 'm' :: rest) = none := by
    have hblanks : Json.skipBlanks (some 'm' :: rest) = some 'm' :: rest := rfl
    have hdigits : Json.digitRow (some 'm' :: rest) = (0, 0, some 'm' :: rest) := by
      unfold Json.digitRow
      rfl
    unfold Json.value?
    rw [hblanks]
    simp [Json.unsignedNumber?, hdigits]
  have hsymbols : Text.ofString q.text = some 'm' :: rest.map some := by
    unfold Text.ofString
    rw [hrest, List.map_cons]
  unfold TypesFile.ofBytes?
  rw [Json.parseBytes?_toUTF8]
  unfold Json.parse? Json.ofSymbols?
  rw [hsymbols, hvalue]
  rfl

/-- **The `qmldir` files are replaced alike.** -/
theorem simulates_replaceQmldirs (dirs : List Qmldir) :
    Workbench.Simulates (pathOf b) (IsCounterpart b d) (fun _ _ => True) (s.replaceQmldirs dirs)
      ((s.relative (pathOf b)).replaceQmldirs dirs) := by
  refine simulates_bind (simulates_glob (fun _ _ h => h) s.outDir _) ?_
  rintro _ paths rfl
  refine simulates_bind (simulates_forM fun r _ =>
    simulates_edit (simulates_removeFile r) fun _ => rfl) fun _ _ _ => ?_
  exact simulates_forM fun q _ =>
    simulates_edit (simulates_write_of_ofBytes? q.path (ofBytes?_qmldir q)) fun _ => rfl

/-! ## The refresh -/

/-- **A refresh comes to the same with relative input files.** -/
theorem runsAgree_refresh (hb : ∀ n ∈ b, IsName n) (hs : s.relativeTo = none)
    (hr : s.registrar.TreatsAlike b d) {registrations : List Registration} (files stale : PathSet)
    (hregs : ∀ r ∈ registrations, r.entry.IsBelow b ∧ r.module.IsInside)
    (hw : Related (IsRootedCounterpart b s.outDir d) w w')
    (hbase : w.tree.canonicalOr (pathOf b) = pathOf b) :
    RunsAgree (pathOf b) (IsCounterpart b d) Eq (s.refresh registrations files stale)
      ((s.relative (pathOf b)).refresh registrations files stale) w w' := by
  have hsettle := runsAgree_settleAll hb hs files stale hregs hw hbase
  -- what is removed last may be anywhere, so that the output directory is reached is given up there
  have hle : ∀ t t', IsRootedCounterpart b s.outDir d t t' → IsCounterpart b d t t' :=
    fun _ _ h => h.counterpart
  rw [refresh_eq, refresh_eq]
  refine hsettle.bind hle ?_
  rintro ⟨metatypes, ms⟩ ⟨metatypes', ms'⟩ u u' ⟨hmetatypes, hms⟩ hu
  dsimp only at hmetatypes hms ⊢
  rw [hmetatypes]
  have hgenerate : Workbench.Simulates (pathOf b) (IsRootedCounterpart b s.outDir d)
      (fun _ _ => True) ((changedOf ms).forM (s.generate (foreignTypes metatypes ms)))
      ((changedOf ms').forM ((s.relative (pathOf b)).generate (foreignTypes metatypes ms'))) := by
    rw [hms.foreignTypes, hms.changedOf.eq]
    refine simulates_forM_map fun m hm => ?_
    obtain ⟨hinside, hdirectory⟩ := hms.changedOf.inside m hm
    exact simulates_generate hr _ hinside hdirectory
  refine (hgenerate u u' hu).bind hle fun _ _ v v' _ hv => ?_
  rw [hms.qmldirsOf, hms.reportOf]
  exact simulates_bind (simulates_replaceQmldirs (qmldirsOf ms))
    (fun _ _ _ => simulates_pure rfl) v v' (hv.mono hle)

end Stubs

end QmlStubs
