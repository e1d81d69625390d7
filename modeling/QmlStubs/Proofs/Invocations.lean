import QmlStubs.Proofs.Containment
import QmlStubs.Proofs.FoundNames

/-!
# The protocol of the registrar

A refresh queues the modules whose entries change while it settles all modules, and invokes the
registrar for the queue afterwards. The invocations are followed with the tree that each of them
finds (`Stubs.invocations`); the program records the arguments of those that are started.

Some of the protocol holds of every refresh (`Stubs.InTurn`): modules come in their order, each at
most once, the foreign types are always the same, and the first failure ends the refresh. For the
rest modules need files of their own. Then (`Stubs.registrar_protocol`)

> **each invocation finds the types files that are left in the end**, it is for a module whose
> entries change, and the foreign types are those files that have entries.

The last phase is followed wherever it ends, since a refresh that fails there has invoked the
registrar, too.
-/

set_option autoImplicit false

namespace QmlStubs

open FileTree

/-- An invocation of the registrar: its module and the foreign types, the tree that it finds,
whether it could be started, and the error if it did not succeed. -/
structure Invocation where
  module : QmlModule
  foreign : List Path
  tree : FileTree
  started : Bool
  error : Option RegistrarError

namespace Stubs

open Workbench

/-- The arguments of an invocation. -/
def argumentsOf (s : Stubs) (i : Invocation) : List String :=
  Registrar.arguments i.module (i.module.directoryIn s.outDir) i.foreign

/-- The invocations for modules in turn. There is none after one that fails. -/
def invocationsFor (s : Stubs) (foreign : List Path) : List Settled → FileTree → List Invocation
  | [], _ => []
  | m :: ms, t =>
    match s.registrar.run m.module m.directory foreign t with
    | (none, started, u) => ⟨m.module, foreign, t, started, none⟩ :: s.invocationsFor foreign ms u
    | (some e, started, _) => [⟨m.module, foreign, t, started, some e⟩]

/-- The invocations of a refresh. -/
def invocations (s : Stubs) (registrations : List Registration) (files stale : PathSet)
    (w : Workbench) : List Invocation :=
  match w.run (s.settleAll registrations files stale) with
  | (.ok (metatypes, ms), v) => s.invocationsFor (foreignTypes metatypes ms) (changedOf ms) v.tree
  | (.error _, _) => []

variable {s : Stubs} {w w' : Workbench} {t u v x : FileTree} {c : Place} {k : QmlModule}
variable {m : Settled} {ms : List Settled} {i : Invocation} {foreign : List Path}
variable {registrations : List Registration} {files stale : PathSet}

/-! ## One after another -/

theorem map_module_invocationsFor (s : Stubs) (foreign : List Path) (ms : List Settled)
    (t : FileTree) : (s.invocationsFor foreign ms t).map (·.module) <+: ms.map (·.module) := by
  induction ms generalizing t with
  | nil => exact List.nil_prefix
  | cons m ms ih =>
    unfold invocationsFor
    split
    next => exact List.cons_prefix_cons.2 ⟨rfl, ih _⟩
    next => exact List.cons_prefix_cons.2 ⟨rfl, List.nil_prefix⟩

theorem foreign_of_mem_invocationsFor (hi : i ∈ s.invocationsFor foreign ms t) :
    i.foreign = foreign := by
  induction ms generalizing t with
  | nil => exact absurd hi List.not_mem_nil
  | cons m ms ih =>
    unfold invocationsFor at hi
    split at hi
    next =>
      rcases List.mem_cons.1 hi with rfl | hi
      · rfl
      · exact ih hi
    next => rw [List.mem_singleton.1 hi]

/-- **An invariant of invocations** holds of the tree that each of them finds. -/
theorem forall_tree_invocationsFor (I : FileTree → Prop) (h : I t)
    (hstep : ∀ m ∈ ms, ∀ u, I u → I (s.registrar.run m.module m.directory foreign u).2.2)
    (hi : i ∈ s.invocationsFor foreign ms t) : I i.tree := by
  induction ms generalizing t with
  | nil => exact absurd hi List.not_mem_nil
  | cons m ms ih =>
    obtain ⟨hfirst, hrest⟩ := List.forall_mem_cons.1 hstep
    have hnext := hfirst t h
    unfold invocationsFor at hi
    split at hi
    next hrun =>
      rw [hrun] at hnext
      rcases List.mem_cons.1 hi with rfl | hi
      · exact h
      · exact ih hnext hrest hi
    next =>
      rw [List.mem_singleton.1 hi]
      exact h

theorem tree_run_generate (w : Workbench) (foreign : List Path) (m : Settled) :
    (w.run (s.generate foreign m)).2.tree =
      (s.registrar.run m.module m.directory foreign w.tree).2.2 := by
  cases hr : s.registrar.run m.module m.directory foreign w.tree with
  | mk error rest => rw [run_generate hr]

/-- **What invoking the registrar in turn comes to**: the program records the arguments of the
invocations that are started, and ends with the error of one that fails, which is the last one. -/
theorem run_forM_generate (w : Workbench) (foreign : List Path)
    (hms : ∀ m ∈ ms, m.directory = m.module.directoryIn s.outDir) :
    (w.run (ms.forM (s.generate foreign))).2.calls = w.calls ++
        ((s.invocationsFor foreign ms w.tree).filter (·.started)).map s.argumentsOf ∧
      ((∀ i ∈ s.invocationsFor foreign ms w.tree, i.error = none) →
        (w.run (ms.forM (s.generate foreign))).1 = .ok () ∧
          (s.invocationsFor foreign ms w.tree).map (·.module) = ms.map (·.module)) ∧
      ∀ i ∈ s.invocationsFor foreign ms w.tree, ∀ e, i.error = some e →
        (w.run (ms.forM (s.generate foreign))).1 = .error (.registrar e) ∧
          (s.invocationsFor foreign ms w.tree).getLast? = some i := by
  induction ms generalizing w with
  | nil => exact ⟨(List.append_nil _).symm, fun _ => ⟨rfl, rfl⟩, nofun⟩
  | cons m ms ih =>
    have hcons : (m :: ms).forM (s.generate foreign) =
        s.generate foreign m >>= fun _ => ms.forM (s.generate foreign) := rfl
    obtain ⟨hdir, hrest⟩ := List.forall_mem_cons.1 hms
    rw [hcons, run_bind]
    unfold invocationsFor
    cases hr : s.registrar.run m.module m.directory foreign w.tree with
    | mk error rest =>
    obtain ⟨started, t⟩ := rest
    rw [run_generate hr, hdir]
    have hcall : ∀ i : Invocation, i.module = m.module → i.foreign = foreign →
        i.started = started → (if started then [Registrar.arguments m.module
          (m.module.directoryIn s.outDir) foreign] else []) =
          ([i].filter (·.started)).map s.argumentsOf := by
      rintro i hmodule hforeign rfl
      cases hs : i.started <;> simp [hs, argumentsOf, hmodule, hforeign]
    cases error with
    | some e =>
      refine ⟨?_, ?_, ?_⟩
      · exact congrArg (w.calls ++ ·) (hcall _ rfl rfl rfl)
      · intro hnone
        exact absurd (hnone _ (List.mem_singleton_self _)) (by simp)
      · intro i hi e' he
        rw [List.mem_singleton.1 hi] at he ⊢
        obtain rfl := Option.some.inj he
        exact ⟨rfl, rfl⟩
    | none =>
      dsimp only [Option.elim_none]
      obtain ⟨hcalls, hdone, hfailed⟩ := ih hrest (w := ⟨t, w.calls ++ (if started then
        [Registrar.arguments m.module (m.module.directoryIn s.outDir) foreign] else []),
        w.notices ++ [.generating m.module m.entries.length]⟩)
      dsimp only at hcalls hdone hfailed
      refine ⟨?_, ?_, ?_⟩
      · rw [hcalls, hcall ⟨m.module, foreign, w.tree, started, none⟩ rfl rfl rfl, List.append_assoc,
          ← List.map_append, ← List.filter_append]
        rfl
      · intro hnone
        obtain ⟨hok, hmodules⟩ := hdone fun i hi => hnone i (List.mem_cons_of_mem _ hi)
        exact ⟨hok, by rw [List.map_cons, List.map_cons, hmodules]⟩
      · intro i hi e he
        rcases List.mem_cons.1 hi with rfl | hi
        · exact absurd he (by simp)
        · obtain ⟨herror, hlast⟩ := hfailed i hi e he
          refine ⟨herror, ?_⟩
          rw [List.getLast?_cons, hlast]
          rfl

/-! ## Steps without invocations -/

section Silent

variable {α β : Type}

/-- A step that does not invoke the registrar, wherever it ends. -/
def IsSilent (a : Refresh α) : Prop := ∀ w : Workbench, (w.run a).2.calls = w.calls

theorem IsSilent.bind {a : Refresh α} {f : α → Refresh β} (ha : IsSilent a)
    (hf : ∀ b, IsSilent (f b)) : IsSilent (a >>= f) := by
  intro w
  have hcalls := ha w
  rw [run_bind]
  cases hrun : w.run a with
  | mk result v =>
    rw [hrun] at hcalls
    cases result with
    | error e => exact hcalls
    | ok b => exact (hf b v).trans hcalls

theorem IsSilent.get_bind {f : Workbench → Refresh β} (hf : ∀ w, IsSilent (f w)) :
    IsSilent (get >>= f) := fun w => hf w w

theorem isSilent_pure (a : α) : IsSilent (pure a) := fun _ => rfl

theorem isSilent_throw (e : RefreshError) : IsSilent (throw e : Refresh α) := fun _ => rfl

theorem IsSilent.forM {f : α → Refresh Unit} (hf : ∀ a, IsSilent (f a)) (l : List α) :
    IsSilent (l.forM f) := by
  induction l with
  | nil => exact isSilent_pure ()
  | cons a l ih => exact (hf a).bind fun _ => ih

theorem IsSilent.mapM {f : α → Refresh β} (hf : ∀ a, IsSilent (f a)) (l : List α) :
    IsSilent (l.mapM f) := by
  induction l with
  | nil => exact isSilent_pure []
  | cons a l ih =>
    rw [List.mapM_cons]
    exact (hf a).bind fun b => ih.bind fun rest => isSilent_pure (b :: rest)

end Silent

theorem isSilent_edit (e : Edit) (wrap : FileError → RefreshError) : IsSilent (edit e wrap) := by
  intro w
  rw [run_edit]

theorem isSilent_glob (p : Path) (pattern : String) : IsSilent (glob p pattern) := by
  refine .get_bind fun w => ?_
  split
  · exact isSilent_throw _
  · exact isSilent_pure _

theorem isSilent_settle (s : Stubs) (base : Path) (files clean : PathSet) (fresh : Fresh)
    (k : QmlModule) : IsSilent (s.settle base files clean fresh k) := by
  refine (isSilent_edit _ _).bind fun _ => .bind ?_ fun former => .get_bind fun w => ?_
  · refine .get_bind fun w => ?_
    dsimp only
    split
    · split
      · exact isSilent_pure _
      · exact isSilent_throw _
    · exact isSilent_pure _
  · dsimp only
    split
    · exact isSilent_throw _
    · split
      · exact (IsSilent.forM (fun _ => isSilent_edit _ _) _).bind fun _ => isSilent_pure _
      · split
        · exact isSilent_pure _
        · exact (isSilent_edit _ _).bind fun _ => isSilent_pure _

theorem isSilent_settleAll (s : Stubs) (registrations : List Registration) (files stale : PathSet) :
    IsSilent (s.settleAll registrations files stale) := by
  refine .get_bind fun w => .bind (fun _ => rfl) fun fresh => .bind ?_ fun ks => ?_
  · exact (isSilent_glob _ _).bind fun _ => isSilent_pure _
  · exact (isSilent_glob _ _).bind fun _ =>
      (IsSilent.mapM (s.isSilent_settle _ _ _ _) _).bind fun _ => isSilent_pure _

theorem isSilent_replaceQmldirs (s : Stubs) (dirs : List Qmldir) :
    IsSilent (s.replaceQmldirs dirs) :=
  (isSilent_glob _ _).bind fun _ => (IsSilent.forM (fun _ => isSilent_edit _ _) _).bind fun _ =>
    IsSilent.forM (fun _ => isSilent_edit _ _) _

/-! ## What the registrar is told -/

/-- The files with types of other modules, in path order. -/
def metatypesIn (s : Stubs) (t : FileTree) : List Path :=
  ((Glob.pathsBelow? t s.metatypesDir "*_metatypes.json".toList).getD []).mergeSort
    fun p q => (compare p.components q.components).isLE

theorem components_typesPath (s : Stubs) (k : QmlModule) :
    (s.typesPath k).components = (k.directoryIn s.outDir).components ++ [.name k.typesFileName] :=
  components_join_name k.isName_typesFileName _

theorem not_underscore_mem_typesFileName (k : QmlModule) : '_' ∉ k.typesFileName.toList := by
  have hrow : ∀ n, '_' ∉ Nat.toDigits 10 n := fun n h =>
    absurd ((Json.isRow_toDigits n).digits _ h) (by decide)
  rw [k.toList_typesFileName]
  unfold QmlModule.versionChars
  simp [hrow]

/-- They have names that no types file has. -/
theorem components_ne_of_mem_metatypesIn {p : Path} (hp : p ∈ s.metatypesIn t) (k : QmlModule) :
    p.components ≠ (s.typesPath k).components := by
  unfold metatypesIn at hp
  rw [List.mem_mergeSort] at hp
  cases hfound : Glob.pathsBelow? t s.metatypesDir "*_metatypes.json".toList with
  | none =>
    rw [hfound] at hp
    exact absurd hp List.not_mem_nil
  | some found =>
    rw [hfound, Option.getD_some] at hp
    obtain ⟨ts, hpart, hts, hc⟩ : ∃ ts, Glob.part? "*_metatypes.json".toList = some (.names ts) ∧
        ts.head? ≠ some (.char '.') ∧ .char '_' ∈ ts := ⟨_, rfl, by decide, by decide⟩
    obtain ⟨name, hname, hmem⟩ :=
      Glob.exists_mem_fileName? (by decide) (by decide) hpart hts hc hfound hp
    intro hsame
    unfold Path.fileName? at hname
    rw [hsame, components_typesPath, List.getLast?_concat] at hname
    obtain rfl := Option.some.inj hname
    exact not_underscore_mem_typesFileName k hmem

theorem map_of_run_mapM {α β : Type} {f : α → Refresh β} {g : β → α} {l : List α} {bs : List β}
    (hstep : ∀ (a : α) (v v' : Workbench) (b : β), v.run (f a) = (.ok b, v') → g b = a)
    (h : w.run (l.mapM f) = (.ok bs, w')) : bs.map g = l := by
  induction l generalizing w bs with
  | nil =>
    obtain ⟨rfl, -⟩ := eq_of_run_pure h
    rfl
  | cons a l ih =>
    obtain ⟨b, rest, v, rfl, hone, hrest⟩ := ok_of_run_mapM h
    rw [List.map_cons, hstep _ _ _ _ hone, ih hrest]

/-- What is settled is the collected modules, each in its directory. -/
theorem modules_of_run_settleAll {metatypes : List Path}
    (hrun : w.run (s.settleAll registrations files stale) = (.ok (metatypes, ms), w')) :
    metatypes = s.metatypesIn w.tree ∧ ms.map (·.module) = s.collected w.tree registrations ∧
      ∀ m ∈ ms, m.directory = m.module.directoryIn s.outDir := by
  have hmetatypes : metatypes = s.metatypesIn w.tree := by
    unfold settleAll at hrun
    have hrun := ok_of_run_get hrun
    dsimp only at hrun
    obtain ⟨fresh, v, hgroup, hrun⟩ := ok_of_run_bind hrun
    obtain ⟨hgroup, rfl⟩ := of_run_group hgroup
    obtain ⟨ks, x, hmodules, hrun⟩ := ok_of_run_bind hrun
    obtain ⟨rfl, -⟩ := of_run_modules (fun k => (find?_group hgroup k).2) hmodules
    obtain ⟨paths, y, hglob, hrun⟩ := ok_of_run_bind hrun
    obtain ⟨settled, z, -, hrun⟩ := ok_of_run_bind hrun
    obtain ⟨hpair, -⟩ := eq_of_run_pure hrun
    obtain ⟨-, found, hfound, -⟩ := of_run_glob hglob
    rw [run_glob hfound] at hglob
    unfold metatypesIn
    rw [hfound, Option.getD_some, ← (Prod.mk.inj hpair).1]
    exact (Except.ok.inj (Prod.mk.inj hglob).1).symm
  obtain ⟨fresh, -, hsettle⟩ := exists_of_run_settleAll hrun
  refine ⟨hmetatypes, map_of_run_mapM (fun k v v' m hm => ?_) hsettle,
    forall_of_run_mapM (fun k _ v v' m hm => ?_) hsettle⟩
  · exact (eq_of_run_settle hm).1
  · obtain ⟨rfl, hdir⟩ := eq_of_run_settle hm
    exact hdir

/-- The modules that have entries in the first phase. -/
theorem map_typesFile_keptOf (hms : ∀ m ∈ ms, m.directory = m.module.directoryIn s.outDir) :
    (keptOf ms).map (·.typesFile) = ((keptOf ms).map (·.module)).map s.typesPath := by
  rw [List.map_map]
  refine List.map_congr_left fun m hm => ?_
  unfold Settled.typesFile
  rw [hms m (mem_keptOf.1 hm).1]
  rfl

/-! ## The last phase, wherever it ends -/

theorem run_glob_snd (w : Workbench) (p : Path) (pattern : String) :
    (w.run (glob p pattern)).2 = w := by
  unfold glob
  rw [run_get_bind]
  split <;> rfl

/-- **The last phase touches files and links named `qmldir` alone**, wherever it ends. -/
theorem agreesBut_run_replaceQmldirs (ht : IsTree w.tree) {dirs : List Qmldir}
    (hdirs : ∀ q ∈ dirs, ∃ c, IsHome w.tree q.directory c ∧ IsPlainAt w.tree (c ++ ["qmldir"])) :
    AgreesBut "qmldir" w.tree (w.run (s.replaceQmldirs dirs)).2.tree := by
  unfold replaceQmldirs
  refine keeps_bind (AgreesBut "qmldir" w.tree) ?_ fun paths v hglob _ => ?_
  · rw [run_glob_snd]
    exact .refl ht
  · have hpaths := fileName?_of_run_globQmldirs hglob
    obtain ⟨rfl, -⟩ := of_run_glob hglob
    refine keeps_bind (AgreesBut "qmldir" v.tree) (agreesBut_removeAll ht hpaths) fun _ x _ hx => ?_
    refine keeps_forM (AgreesBut "qmldir" v.tree) hx fun q hq y hy => hy.trans ?_
    obtain ⟨c, hc, hplain⟩ := hdirs q hq
    rw [tree_run_edit]
    show AgreesBut "qmldir" y.tree
      (y.tree.run (FileTree.write (q.directory.join "qmldir") q.text.toUTF8)).2
    cases hrun : y.tree.run (FileTree.write (q.directory.join "qmldir") q.text.toUTF8) with
    | mk result z =>
    cases result with
    | ok =>
      obtain ⟨-, d, hr, -⟩ := of_run_write_join QmlModule.isName_qmldir hrun
      obtain rfl : d = c := (hr.isHome hy.hasLinksOf).unique hc
      obtain ⟨-, hw, x, rfl⟩ :=
        hr.of_run_write QmlModule.isName_qmldir (hy.hasLinksOf.isPlainAt hplain) hrun
      exact .put_file hy.isTree hr.isDirectory hw _ _ _
    | error e =>
      unfold write at hrun
      rw [run_editBy] at hrun
      split at hrun
      · exact absurd (Prod.mk.inj hrun).1 (by simp)
      · obtain rfl := (Prod.mk.inj hrun).2
        exact .refl hy.isTree

/-! ## What the registrar finds -/

section Settled

variable {base : Path} {clean : PathSet} {fresh : QmlModule → List TypesEntry}
variable {ks : List QmlModule}

/-- **A settled module has its entries in its types file**, also if it has none, -/
theorem SettlesAt.typesAt_eq (h : SettlesAt s ks base files clean fresh t u c m) :
    u.typesAt (c ++ [m.module.typesFileName]) = m.entries := by
  rw [FileTree.typesAt_eq]
  by_cases hnil : m.entries = []
  · rw [h.gone hnil _ (List.mem_cons_self ..), hnil]
    rfl
  · obtain ⟨-, content, hcontent, hof⟩ := h.stored hnil
    rw [hcontent, Option.elim_some, hof]
    rfl

/-- and they are found behind its path. -/
theorem SettlesAt.entriesOf_eq (h : SettlesAt s ks base files clean fresh t u c m)
    (hplain : IsPlainAt u (c ++ [m.module.typesFileName])) :
    s.entriesOf u m.module = m.entries := by
  have hat := entriesOf_eq_typesAt (h.directory ▸ h.reaches) hplain
  rw [h.typesAt_eq] at hat
  by_cases hnil : m.entries = []
  · by_contra hne
    exact hne (hat (fits_of_entriesOf (hnil ▸ hne)))
  · exact hat (h.directory ▸ (h.stored hnil).1)

end Settled

/-- A tree after the first phase, in which modules with files of their own are settled. -/
structure IsSettled (s : Stubs) (registrations : List Registration) (files stale : PathSet)
    (t v : FileTree) (ms : List Settled) : Prop where
  own : HaveOwnFiles s t (s.collected t registrations)
  modules : ms.map (·.module) = s.collected t registrations
  change : Reworked (fun q => ∃ k ∈ s.collected t registrations, IsFileOf s t k q) t v
  settled : ∀ m ∈ ms, ∃ c, s.SettlesCollected registrations files stale t v c m

/-- The registrar leaves types files as they are. -/
theorem contentAt?_of_isMadeFor (hx : Reworked (IsMadeFor v ms) v x) (k : QmlModule) (c : Place) :
    x.contentAt? (c ++ [k.typesFileName]) = v.contentAt? (c ++ [k.typesFileName]) := by
  refine hx.contentAt?_eq ?_
  rintro ⟨m, -, d, -, n, hn, hsame⟩
  have hname := List.singleton_inj.1 (List.append_inj' hsame rfl).2
  exact QmlModule.ne_typesFileName_of_mem_otherNames hn _ hname.symm

namespace IsSettled

/-- The registrar keeps what a tree has after the first phase. -/
abbrev After (v : FileTree) (ms : List Settled) (x : FileTree) : Prop :=
  Reworked (IsMadeFor v (changedOf ms)) v x

variable (h : IsSettled s registrations files stale t v ms)

include h

theorem mem (hm : m ∈ ms) : m.module ∈ s.collected t registrations := by
  rw [← h.modules]
  exact List.mem_map_of_mem hm

theorem exists_of_mem (hk : k ∈ s.collected t registrations) : ∃ m ∈ ms, m.module = k := by
  rw [← h.modules] at hk
  exact List.mem_map.1 hk

theorem plain (hm : m ∈ ms) (hx : HasLinksOf t x)
    (hc : s.SettlesCollected registrations files stale t x c m) {n : String}
    (hn : n ∈ "qmldir" :: m.module.fileNames) : IsPlainAt x (c ++ [n]) :=
  hx.isPlainAt (h.own.plain m.module (h.mem hm) c (hc.directory ▸ hc.reaches.isHome hx) n hn)

theorem hasLinksOf (hx : After v ms x) : HasLinksOf t x :=
  ((h.change.mono fun _ _ => trivial).trans (hx.mono fun _ _ => trivial)).hasLinksOf

/-- The registrar leaves the modules settled, -/
theorem after (hx : After v ms x) (hm : m ∈ ms) :
    ∃ c, s.SettlesCollected registrations files stale t x c m := by
  obtain ⟨c, hc⟩ := h.settled m hm
  refine ⟨c, hc.after_generate h.change.hasLinksOf h.own ?_ (fun _ => h.mem) h.settled hx hm⟩
  rw [h.modules]
  exact nodup_collected ..

/-- and runs for them are kept apart. -/
theorem after_run (hlaw : s.registrar.OnlyWritesOutputs) (hx : After v ms x)
    (hm : m ∈ changedOf ms) (foreign : List Path) :
    After v ms (s.registrar.run m.module m.directory foreign x).2.2 := by
  have hmem := (mem_changedOf.1 hm).1
  obtain ⟨c, hc⟩ := h.after hx hmem
  have hone := reworked_generate (w := ⟨x, [], []⟩) hlaw hx.isTree hc.reaches
    (fun n hn => h.plain hmem (h.hasLinksOf hx) hc
      (List.mem_cons_of_mem _ (List.mem_cons_of_mem _ hn))) foreign
  rw [tree_run_generate] at hone
  refine hx.trans (hone.mono ?_)
  rintro q ⟨n, hn, rfl⟩
  exact ⟨m, hm, c, hx.isHome_iff.1 (hc.reaches.isHome (.refl x)), n, hn, rfl⟩

/-- Each invocation finds the modules settled. -/
theorem after_invocation (hlaw : s.registrar.OnlyWritesOutputs)
    (hi : i ∈ s.invocationsFor foreign (changedOf ms) v) : After v ms i.tree :=
  forall_tree_invocationsFor (After v ms) (.refl h.change.isTree)
    (fun _ hm _ hx => h.after_run hlaw hx hm foreign) hi

theorem entriesOf_eq (hx : After v ms x) (hm : m ∈ ms) : s.entriesOf x m.module = m.entries := by
  obtain ⟨c, hc⟩ := h.after hx hm
  refine hc.entriesOf_eq (h.plain hm (h.hasLinksOf hx) hc ?_)
  exact List.mem_cons_of_mem _ (List.mem_cons_self ..)

/-- The modules with entries are those whose types files have some. -/
theorem map_module_keptOf (hx : After v ms x) : (keptOf ms).map (·.module) =
    (s.collected t registrations).filter fun k => s.entriesOf x k ≠ [] := by
  rw [← h.modules, List.filter_map]
  unfold keptOf
  refine congrArg (List.map fun m : Settled => m.module) (List.filter_congr fun m hm => ?_)
  rw [Function.comp_apply, h.entriesOf_eq hx hm]
  cases m.entries <;> rfl

end IsSettled

/-! ## The protocol -/

/-- What holds of the invocations of any refresh: their arguments are recorded if they are started,
modules come in their order, each at most once, the foreign types are the same for all of them, and
one that fails is the last one and ends the refresh. -/
structure InTurn (s : Stubs) (registrations : List Registration) (w w' : Workbench)
    (result : Except RefreshError RefreshReport) (log : List Invocation) : Prop where
  recorded : w'.calls = w.calls ++ (log.filter (·.started)).map s.argumentsOf
  increasing : log.Pairwise fun i j => compare i.module j.module = .lt
  foreign : ∃ kept : List QmlModule, kept.Sublist (s.collected w.tree registrations) ∧
    ∀ i ∈ log, i.module ∈ kept ∧ i.foreign = s.metatypesIn w.tree ++ kept.map s.typesPath
  failed : ∀ i ∈ log, ∀ e, i.error = some e →
    result = .error (.registrar e) ∧ log.getLast? = some i

/-- What an invocation finds in a refresh from a tree `t` to a tree `u`: the types files as they are
left, with the entries that the modules should have, other ones than before for its own module. -/
structure FindsTypes (s : Stubs) (registrations : List Registration) (files stale : PathSet)
    (t u : FileTree) (i : Invocation) : Prop where
  final : ∀ k ∈ s.collected t registrations, ∀ c, IsHome t (k.directoryIn s.outDir) c →
    i.tree.contentAt? (c ++ [k.typesFileName]) = u.contentAt? (c ++ [k.typesFileName])
  entries : ∀ k ∈ s.collected t registrations, ∃ c v, IsHome t (k.directoryIn s.outDir) c ∧
    Reworked (IsFileOfOther s t (s.collected t registrations) k) t v ∧
    s.entriesOf i.tree k = s.wantedEntries registrations files stale t c v k
  changed : s.entriesOf i.tree i.module ≠ [] ∧ ∀ c, IsHome t (i.module.directoryIn s.outDir) c →
    s.entriesOf i.tree i.module ≠ t.typesAt (c ++ [i.module.typesFileName])
  foreign : i.foreign = s.metatypesIn t ++
    ((s.collected t registrations).filter fun k => s.entriesOf i.tree k ≠ []).map s.typesPath
  removed : ∀ k ∈ s.collected t registrations, s.entriesOf i.tree k = [] →
    ∀ p ∈ i.foreign, p.components ≠ (s.typesPath k).components

/-- No file or link named `qmldir` comes, changes or goes. -/
def KeepsQmldirs (t u : FileTree) : Prop :=
  ∀ q : Place, q.getLast? = some "qmldir" →
    u.at? q = t.at? q ∨ t.at? q = none ∧ u.isDirectoryAt q = true

/-- What holds of the invocations where modules have files of their own. -/
structure ServesChanges (s : Stubs) (registrations : List Registration) (files stale : PathSet)
    (w w' : Workbench) (result : Except RefreshError RefreshReport) (log : List Invocation) :
    Prop where
  finds : ∀ i ∈ log, i.module ∈ s.collected w.tree registrations ∧
    s.FindsTypes registrations files stale w.tree w'.tree i
  complete : result.toBool = true → ∀ k ∈ s.collected w.tree registrations,
    ∀ c, IsHome w.tree (k.directoryIn s.outDir) c →
      w'.tree.typesAt (c ++ [k.typesFileName]) ≠ [] →
      w'.tree.typesAt (c ++ [k.typesFileName]) ≠ w.tree.typesAt (c ++ [k.typesFileName]) →
      ∃ i ∈ log, i.module = k
  qmldirs : (∃ i ∈ log, i.error ≠ none) → KeepsQmldirs w.tree w'.tree

theorem run_bind_of_error {α β : Type} {a : Refresh α} {f : α → Refresh β} {e : RefreshError}
    (h : (w.run a).1 = .error e) : w.run (a >>= f) = (.error e, (w.run a).2) := by
  rw [run_bind]
  cases hrun : w.run a with
  | mk result v =>
    rw [hrun] at h
    dsimp only at h
    rw [h]

/-- The phases that follow the first one, wherever they end. -/
theorem run_refresh_of_settled {metatypes : List Path}
    (hsettle : w.run (s.settleAll registrations files stale) = (.ok (metatypes, ms), w')) :
    w.run (s.refresh registrations files stale) = w'.run (do
      (changedOf ms).forM (s.generate (foreignTypes metatypes ms))
      s.replaceQmldirs (qmldirsOf ms)
      return reportOf ms) := by
  rw [refresh_eq, run_bind, hsettle]

theorem inTurn_invocations (s : Stubs) (registrations : List Registration) (files stale : PathSet)
    (w : Workbench) : s.InTurn registrations w (w.run (s.refresh registrations files stale)).2
      (w.run (s.refresh registrations files stale)).1
      (s.invocations registrations files stale w) := by
  have hsilent := s.isSilent_settleAll registrations files stale w
  unfold invocations
  cases hsettle : w.run (s.settleAll registrations files stale) with
  | mk result v =>
  rw [hsettle] at hsilent
  cases result with
  | error e =>
    rw [refresh_eq, run_bind, hsettle]
    exact ⟨hsilent.trans (List.append_nil _).symm, List.Pairwise.nil,
      ⟨[], List.nil_sublist _, nofun⟩, nofun⟩
  | ok found =>
  obtain ⟨metatypes, ms⟩ := found
  dsimp only
  obtain ⟨hmetatypes, hmodules, hdirs⟩ := modules_of_run_settleAll hsettle
  have hqueue := map_module_invocationsFor s (foreignTypes metatypes ms) (changedOf ms) v.tree
  have hqueued : ∀ m ∈ changedOf ms, m.directory = m.module.directoryIn s.outDir :=
    fun m hm => hdirs m (mem_changedOf.1 hm).1
  obtain ⟨hcalls, hdone, hfailed⟩ := run_forM_generate v (foreignTypes metatypes ms) hqueued
  have hkept : ((keptOf ms).map (·.module)).Sublist (s.collected w.tree registrations) :=
    hmodules ▸ List.filter_sublist.map _
  have hchanged : ((changedOf ms).map (·.module)).Sublist ((keptOf ms).map (·.module)) :=
    List.filter_sublist.map _
  rw [run_refresh_of_settled hsettle]
  refine ⟨?_, ?_, ⟨_, hkept, fun i hi => ⟨?_, ?_⟩⟩, ?_⟩
  · have hlast : IsSilent (do s.replaceQmldirs (qmldirsOf ms); return reportOf ms) :=
      (s.isSilent_replaceQmldirs _).bind fun _ => isSilent_pure _
    rw [← hsilent, ← hcalls, run_bind]
    cases hrun : v.run ((changedOf ms).forM (s.generate (foreignTypes metatypes ms))) with
    | mk result x =>
    cases result with
    | error e => rfl
    | ok => exact hlast x
  · have hmodules : ((s.invocationsFor (foreignTypes metatypes ms) (changedOf ms) v.tree).map
        (·.module)).Pairwise fun a b => compare a b = .lt :=
      (pairwise_collected s w.tree registrations).sublist
        (hqueue.sublist.trans (hchanged.trans hkept))
    exact List.pairwise_map.1 hmodules
  · exact hchanged.subset (hqueue.subset (List.mem_map_of_mem hi))
  · rw [foreign_of_mem_invocationsFor hi, foreignTypes, map_typesFile_keptOf hdirs, hmetatypes]
  · intro i hi e he
    obtain ⟨herror, hend⟩ := hfailed i hi e he
    rw [run_bind_of_error herror]
    exact ⟨rfl, hend⟩

namespace IsSettled

variable (h : IsSettled s registrations files stale t v ms)

include h

/-- What follows the invocations leaves the types files, wherever it ends. -/
theorem contentAt?_after_replace {w : Workbench} (hx : After v ms w.tree) (k : QmlModule)
    (c : Place) :
    (w.run (s.replaceQmldirs (qmldirsOf ms))).2.tree.contentAt? (c ++ [k.typesFileName]) =
      v.contentAt? (c ++ [k.typesFileName]) := by
  have hdirs : ∀ q ∈ qmldirsOf ms, ∃ c, IsHome w.tree q.directory c ∧
      IsPlainAt w.tree (c ++ ["qmldir"]) := by
    intro q hq
    obtain ⟨⟨m, hm, hdir, -⟩, -⟩ := of_mem_qmldirsOf hq
    obtain ⟨hm, -⟩ := mem_keptOf.1 hm
    obtain ⟨c, hc⟩ := h.after hx hm
    rw [hdir]
    exact ⟨c, hc.reaches.isHome (.refl _), h.plain hm (h.hasLinksOf hx) hc (List.mem_cons_self ..)⟩
  have hlast := agreesBut_run_replaceQmldirs (s := s) hx.isTree hdirs
  rw [contentAt?_of_agreesBut hlast (List.mem_cons_self ..), contentAt?_of_isMadeFor hx]

theorem directory (hm : m ∈ ms) : m.directory = m.module.directoryIn s.outDir := by
  obtain ⟨c, hc⟩ := h.settled m hm
  exact hc.directory

/-- A module without entries has its types file to itself, so no other one with entries is told by
the same path. -/
theorem components_ne (hx : After v ms x) {k' : QmlModule} (hk : k ∈ s.collected t registrations)
    (hk' : k' ∈ s.collected t registrations) (hne : k ≠ k') :
    (s.typesPath k).components ≠ (s.typesPath k').components := by
  obtain ⟨m, hm, rfl⟩ := h.exists_of_mem hk
  obtain ⟨m', hm', rfl⟩ := h.exists_of_mem hk'
  obtain ⟨c, hc⟩ := h.after hx hm
  obtain ⟨c', hc'⟩ := h.after hx hm'
  have hlinks := h.hasLinksOf hx
  have hhome : IsHome t (m.module.directoryIn s.outDir) c :=
    hc.directory ▸ hc.reaches.isHome hlinks
  have hreaches : Reaches x (m'.module.directoryIn s.outDir) c' := hc'.directory ▸ hc'.reaches
  intro hsame
  rw [components_typesPath, components_typesPath] at hsame
  obtain ⟨hdirs, hnames⟩ := List.append_inj' hsame rfl
  have hname := Component.name.inj (List.singleton_inj.1 hnames)
  have hhome' : IsHome t (m'.module.directoryIn s.outDir) c := by
    have hthere := (hreaches.of_components hdirs).isHome hlinks
    obtain rfl := hthere.unique hhome
    exact hreaches.isHome hlinks
  exact hne (h.own.apart _ hk _ hk' c hhome hhome' hname)

/-- **What an invocation finds**, if the types files are left as the first phase left them. -/
theorem findsTypes (hlaw : s.registrar.OnlyWritesOutputs)
    (hi : i ∈ s.invocationsFor (s.metatypesIn t ++ (keptOf ms).map (·.typesFile)) (changedOf ms) v)
    (hend : ∀ (k : QmlModule) (c : Place),
      u.contentAt? (c ++ [k.typesFileName]) = v.contentAt? (c ++ [k.typesFileName])) :
    s.FindsTypes registrations files stale t u i := by
  have hx := h.after_invocation hlaw hi
  have hlinks := h.hasLinksOf hx
  have hforeign : i.foreign = s.metatypesIn t ++
      ((s.collected t registrations).filter fun k => s.entriesOf i.tree k ≠ []).map s.typesPath := by
    rw [foreign_of_mem_invocationsFor hi, map_typesFile_keptOf fun m hm => h.directory hm,
      h.map_module_keptOf hx]
  constructor
  case final =>
    intro k _ c _
    rw [hend, contentAt?_of_isMadeFor hx]
  case entries =>
    intro k hk
    obtain ⟨m, hm, rfl⟩ := h.exists_of_mem hk
    obtain ⟨c, hc⟩ := h.after hx hm
    obtain ⟨y, hy, -, hentries, -⟩ := hc.merged
    exact ⟨c, y, hc.directory ▸ hc.reaches.isHome hlinks, hy,
      (h.entriesOf_eq hx hm).trans hentries⟩
  case changed =>
    obtain ⟨m, hm, hmodule⟩ := List.mem_map.1
      ((map_module_invocationsFor s _ (changedOf ms) v).subset (List.mem_map_of_mem hi))
    obtain ⟨hm, hne, hchanged⟩ := mem_changedOf.1 hm
    rw [← hmodule, h.entriesOf_eq hx hm]
    refine ⟨hne, fun c hhome => ?_⟩
    obtain ⟨d, hd⟩ := h.after hx hm
    obtain rfl := (hd.directory ▸ hd.reaches.isHome hlinks :
      IsHome t (m.module.directoryIn s.outDir) d).unique hhome
    exact (hd.changed.1 hchanged).2
  case foreign => exact hforeign
  case removed =>
    intro k hk hnil p hp
    rw [hforeign] at hp
    rcases List.mem_append.1 hp with hp | hp
    · exact components_ne_of_mem_metatypesIn hp k
    · obtain ⟨k', hk', rfl⟩ := List.mem_map.1 hp
      obtain ⟨hk', hne⟩ := List.mem_filter.1 hk'
      refine h.components_ne hx hk' hk ?_
      rintro rfl
      exact of_decide_eq_true hne hnil

/-- When the first phase and the registrar leave a `qmldir` file, so do both. -/
theorem keepsQmldirs (hx : After v ms x) : KeepsQmldirs t x := by
  intro q hq
  have hvisited : ∀ {c : Place} {n : String} {k : QmlModule}, n ∈ k.fileNames → q ≠ c ++ [n] := by
    rintro c n k hn rfl
    rw [List.getLast?_concat] at hq
    exact k.qmldir_not_mem_fileNames (Option.some.inj hq ▸ hn)
  refine ((h.change.mono fun r hr => ?_).trans (hx.mono fun r hr => ?_) :
    Reworked (· ≠ q) t x).kept q (by simp)
  · obtain ⟨k, -, c, -, n, hn, rfl⟩ := hr
    exact (hvisited hn).symm
  · obtain ⟨m, -, c, -, n, hn, rfl⟩ := hr
    exact (hvisited (List.mem_cons_of_mem _ hn)).symm

end IsSettled

theorem IsSettled.after_forM_generate (h : IsSettled s registrations files stale t w.tree ms)
    (hlaw : s.registrar.OnlyWritesOutputs) (foreign : List Path) :
    IsSettled.After w.tree ms (w.run ((changedOf ms).forM (s.generate foreign))).2.tree := by
  refine keeps_forM (IsSettled.After w.tree ms) (.refl h.change.isTree) fun m hm y hy => ?_
  rw [tree_run_generate]
  exact h.after_run hlaw hy hm foreign

/-- **The types files are left as the first phase left them**, wherever a refresh ends. -/
theorem IsSettled.contentAt?_end (h : IsSettled s registrations files stale t w.tree ms)
    (hlaw : s.registrar.OnlyWritesOutputs) (foreign : List Path) (k : QmlModule) (c : Place) :
    (w.run (do
      (changedOf ms).forM (s.generate foreign)
      s.replaceQmldirs (qmldirsOf ms)
      return reportOf ms)).2.tree.contentAt? (c ++ [k.typesFileName]) =
      w.tree.contentAt? (c ++ [k.typesFileName]) := by
  have hafter := h.after_forM_generate hlaw foreign
  let I : FileTree → Prop := fun y => y.contentAt? (c ++ [k.typesFileName]) =
    w.tree.contentAt? (c ++ [k.typesFileName])
  refine keeps_bind I (contentAt?_of_isMadeFor hafter k c) fun _ y hrun _ => ?_
  rw [hrun] at hafter
  exact keeps_bind I (h.contentAt?_after_replace hafter k c) fun _ _ _ hz => hz

theorem servesChanges_invocations (s : Stubs) (registrations : List Registration)
    (files stale : PathSet) (w : Workbench) (ht : IsTree w.tree)
    (hlaw : s.registrar.OnlyWritesOutputs)
    (hown : HaveOwnFiles s w.tree (s.collected w.tree registrations)) :
    s.ServesChanges registrations files stale w (w.run (s.refresh registrations files stale)).2
      (w.run (s.refresh registrations files stale)).1
      (s.invocations registrations files stale w) := by
  unfold invocations
  cases hsettle : w.run (s.settleAll registrations files stale) with
  | mk result v =>
  cases result with
  | error e =>
    rw [refresh_eq, run_bind, hsettle]
    exact ⟨nofun, nofun, nofun⟩
  | ok found =>
  obtain ⟨metatypes, ms⟩ := found
  obtain ⟨rfl, hmodules, hdirs⟩ := modules_of_run_settleAll hsettle
  obtain ⟨-, hchange, hsettled⟩ := of_run_settleAllOwn ht hown hsettle
  have h : IsSettled s registrations files stale w.tree v.tree ms :=
    ⟨hown, hmodules, hchange, hsettled⟩
  have hend := h.contentAt?_end hlaw (foreignTypes (s.metatypesIn w.tree) ms)
  have hqueued : ∀ m ∈ changedOf ms, m.directory = m.module.directoryIn s.outDir :=
    fun m hm => hdirs m (mem_changedOf.1 hm).1
  obtain ⟨-, hdone, hfailed⟩ :=
    run_forM_generate v (foreignTypes (s.metatypesIn w.tree) ms) hqueued
  rw [run_refresh_of_settled hsettle]
  dsimp only
  refine ⟨fun i hi => ⟨?_, h.findsTypes hlaw hi hend⟩, fun hok k hk c hc hne hnew => ?_, ?_⟩
  · obtain ⟨m, hm, hmodule⟩ := List.mem_map.1
      ((map_module_invocationsFor s _ (changedOf ms) v.tree).subset (List.mem_map_of_mem hi))
    rw [← hmodule]
    exact h.mem (mem_changedOf.1 hm).1
  · obtain ⟨m, hm, rfl⟩ := h.exists_of_mem hk
    obtain ⟨d, hd⟩ := hsettled m hm
    obtain rfl := (hd.directory ▸ hd.reaches.isHome hchange.hasLinksOf :
      IsHome w.tree (m.module.directoryIn s.outDir) d).unique hc
    rw [FileTree.typesAt_eq, hend, ← FileTree.typesAt_eq, hd.typesAt_eq] at hne hnew
    have hqueued : m ∈ changedOf ms := mem_changedOf.2 ⟨hm, hne, hd.changed.2 ⟨hne, hnew⟩⟩
    have hnone : ∀ i ∈ s.invocationsFor (foreignTypes (s.metatypesIn w.tree) ms) (changedOf ms)
        v.tree, i.error = none := by
      intro i hi
      cases he : i.error with
      | none => rfl
      | some e =>
        rw [run_bind_of_error (hfailed i hi e he).1] at hok
        exact absurd hok (by simp [Except.toBool])
    obtain ⟨-, hall⟩ := hdone hnone
    exact List.mem_map.1 (hall ▸ List.mem_map_of_mem hqueued)
  · rintro ⟨i, hi, he⟩
    obtain ⟨e, he⟩ := Option.ne_none_iff_exists'.1 he
    rw [run_bind_of_error (hfailed i hi e he).1]
    exact h.keepsQmldirs (h.after_forM_generate hlaw _)

/-- **The protocol of the registrar.** Modules come in turn, each at most once, always with the same
foreign types, and the first failure ends a refresh. Where the modules that are looked at have files
of their own, each invocation finds the types files that are left in the end and is for a module
whose entries change; all of these have had one when the refresh succeeds. -/
theorem registrar_protocol (s : Stubs) (registrations : List Registration) (files stale : PathSet)
    (w w' : Workbench) (result : Except RefreshError RefreshReport)
    (hrun : w.run (s.refresh registrations files stale) = (result, w')) :
    s.InTurn registrations w w' result (s.invocations registrations files stale w) ∧
      (IsTree w.tree → s.registrar.OnlyWritesOutputs →
        HaveOwnFiles s w.tree (s.collected w.tree registrations) →
        s.ServesChanges registrations files stale w w' result
          (s.invocations registrations files stale w)) := by
  have hinTurn := s.inTurn_invocations registrations files stale w
  have hserves := s.servesChanges_invocations registrations files stale w
  rw [hrun] at hinTurn hserves
  exact ⟨hinTurn, hserves⟩

theorem map_module_invocations_former : (plainStubs.invocations oneRegistration bothSources
    (.ofList [⟨"/a.py"⟩]) ⟨sourcesTree formerStubs, [], []⟩).map (·.module) = [⟨"u", 1, 0⟩] := by
  decide +kernel

/-- The registrar is invoked for a new module, and not for one that is there. -/
theorem former_registrar_protocol : ∃ report w',
    refreshOnce oneRegistration bothSources (.ofList [⟨"/a.py"⟩]) (sourcesTree formerStubs) =
      (.ok report, w') ∧
    let w : Workbench := ⟨sourcesTree formerStubs, [], []⟩
    let log := plainStubs.invocations oneRegistration bothSources (.ofList [⟨"/a.py"⟩]) w
    log.map (·.module) = [⟨"u", 1, 0⟩] ∧
      plainStubs.InTurn oneRegistration w w' (.ok report) log ∧
      plainStubs.ServesChanges oneRegistration bothSources (.ofList [⟨"/a.py"⟩]) w w' (.ok report)
        log := by
  obtain ⟨report, hrun⟩ := exists_pair_of_toBool refreshOnce_former
  obtain ⟨hinTurn, hserves⟩ := registrar_protocol plainStubs oneRegistration bothSources
    (.ofList [⟨"/a.py"⟩]) ⟨sourcesTree formerStubs, [], []⟩ _ _ hrun
  exact ⟨report, _, hrun, map_module_invocations_former, hinTurn, hserves site_formerStubs.isTree
    (Registrar.onlyWritesOutputs_scripted _ _ _) haveOwnFiles_formerStubs⟩

/-! ## Modules without files of their own -/

/-- A link in the place of an output of the registrar leads to the types file beside it. -/
def linkedStubs : List (Place × Entry) :=
  [(["o", "u"], .directory ⟨100, 0⟩),
    (["o", "u", "types1-0.qmltypes"], .link ⟨"types1-0.json"⟩)]

/-- A module that comes after `u.` and has its files. -/
def dottedRegistration : List Registration := [⟨⟨"u..", 1, 0⟩, plainEntry "/a.py"⟩]

/-- The registrar finds a types file that it then writes over. -/
theorem refreshOnce_linked :
    (refreshOnce oneRegistration bothSources bothSources (sourcesTree linkedStubs)).1.toBool = true ∧
    ((refreshOnce oneRegistration bothSources bothSources
      (sourcesTree linkedStubs)).2.tree.contentAt? ["o", "u", "types1-0.json"]).all
        (·.isEmpty) = true ∧
    (plainStubs.invocations oneRegistration bothSources bothSources
      ⟨sourcesTree linkedStubs, [], []⟩).any (fun i =>
        !(i.tree.contentAt? ["o", "u", "types1-0.json"]).all (·.isEmpty)) = true := by
  decide +kernel

theorem refreshOnce_dotted :
    (refreshOnce dottedRegistration bothSources bothSources
      (sourcesTree dottedStubs)).1.toOption.map (·.removed) = some [⟨"u.", 1, 0⟩] ∧
    (plainStubs.invocations dottedRegistration bothSources bothSources
      ⟨sourcesTree dottedStubs, [], []⟩).map (·.foreign) =
      [[plainStubs.typesPath ⟨"u.", 1, 0⟩]] := by
  decide +kernel

/-- A module loses its last entry. -/
theorem refreshOnce_dropped :
    (refreshOnce [] bothSources (.ofList [⟨"/b.py"⟩]) (sourcesTree formerStubs)).1.toOption.map
      (·.removed) = some [⟨"v", 1, 0⟩] ∧
    plainStubs.entriesOf (sourcesTree formerStubs) ⟨"v", 1, 0⟩ ≠
      plainStubs.entriesOf (refreshOnce [] bothSources (.ofList [⟨"/b.py"⟩])
        (sourcesTree formerStubs)).2.tree ⟨"v", 1, 0⟩ ∧
    (plainStubs.invocations [] bothSources (.ofList [⟨"/b.py"⟩])
      ⟨sourcesTree formerStubs, [], []⟩).isEmpty = true := by
  decide +kernel

theorem exists_of_map_removed {registrations : List Registration} {files stale : PathSet}
    {t : FileTree} {removed : List QmlModule}
    (h : (refreshOnce registrations files stale t).1.toOption.map (·.removed) = some removed) :
    ∃ report, refreshOnce registrations files stale t =
      (.ok report, (refreshOnce registrations files stale t).2) ∧ report.removed = removed := by
  cases hrun : refreshOnce registrations files stale t with
  | mk result w' =>
  rw [hrun] at h
  cases result with
  | error e => exact absurd h (by simp [Except.toOption])
  | ok report => exact ⟨report, rfl, Option.some.inj h⟩

/-- **The protocol asks for files of their own.** Through a link the registrar changes a types file
that it was told about, and a module without entries can have the types file of another one. And a
module that is removed has no invocation, though its entries change. -/
theorem shared_files_break_protocol : plainStubs.registrar.OnlyWritesOutputs ∧
    (∃ report w', refreshOnce oneRegistration bothSources bothSources (sourcesTree linkedStubs) =
        (.ok report, w') ∧
      ∃ i ∈ plainStubs.invocations oneRegistration bothSources bothSources
          ⟨sourcesTree linkedStubs, [], []⟩,
        i.tree.contentAt? ["o", "u", "types1-0.json"] ≠
          w'.tree.contentAt? ["o", "u", "types1-0.json"]) ∧
    (∃ report w', refreshOnce dottedRegistration bothSources bothSources (sourcesTree dottedStubs) =
        (.ok report, w') ∧
      ∃ i ∈ plainStubs.invocations dottedRegistration bothSources bothSources
          ⟨sourcesTree dottedStubs, [], []⟩,
        ∃ k ∈ report.removed, plainStubs.typesPath k ∈ i.foreign) ∧
    ∃ report w', refreshOnce [] bothSources (.ofList [⟨"/b.py"⟩]) (sourcesTree formerStubs) =
        (.ok report, w') ∧
      ∃ k ∈ report.removed, plainStubs.entriesOf (sourcesTree formerStubs) k ≠
          plainStubs.entriesOf w'.tree k ∧
        ∀ i ∈ plainStubs.invocations [] bothSources (.ofList [⟨"/b.py"⟩])
          ⟨sourcesTree formerStubs, [], []⟩, i.module ≠ k := by
  refine ⟨Registrar.onlyWritesOutputs_scripted _ _ _, ?_, ?_, ?_⟩
  · obtain ⟨hok, hempty, hany⟩ := refreshOnce_linked
    obtain ⟨report, hrun⟩ := exists_pair_of_toBool hok
    obtain ⟨i, hi, hfull⟩ := List.any_eq_true.1 hany
    refine ⟨report, _, hrun, i, hi, fun hsame => ?_⟩
    rw [hsame, hempty] at hfull
    exact absurd hfull (by simp)
  · obtain ⟨hremoved, hforeign⟩ := refreshOnce_dotted
    obtain ⟨report, hrun, hremoved⟩ := exists_of_map_removed hremoved
    obtain ⟨i, hi, hlist⟩ := List.map_eq_singleton_iff.1 hforeign
    refine ⟨report, _, hrun, i, ?_, ⟨"u.", 1, 0⟩, ?_, ?_⟩
    · rw [hi]
      exact List.mem_singleton_self i
    · rw [hremoved]
      exact List.mem_singleton_self _
    · rw [hlist]
      exact List.mem_singleton_self _
  · obtain ⟨hremoved, hnew, hnone⟩ := refreshOnce_dropped
    obtain ⟨report, hrun, hremoved⟩ := exists_of_map_removed hremoved
    refine ⟨report, _, hrun, ⟨"v", 1, 0⟩, ?_, hnew, ?_⟩
    · rw [hremoved]
      exact List.mem_singleton_self _
    · rw [List.isEmpty_iff.1 hnone]
      nofun

end Stubs

end QmlStubs
